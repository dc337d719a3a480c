import X86Listing.Proofs.Machine.Stack

/-!
# The stack is a bounded list

A stack is a range of bytes, and its top is a word that is kept elsewhere.  From an empty
stack on, pushes, pops and reads make of the two a list of words with room for a number of
them.  `Stack.performAll_eq` says so for every sequence of operations, those that fail
included.

* `SlotList.attempt` are the operations as they are on lists.  A `SlotList` is what stays the
  same: the number of slots, and the address of the lowest one, because the faults of a stack
  show addresses.
* `Represents` says that a stack and a top stand for a list.  `Represents.push_eq` and
  `Represents.top_eq` say what the operations answer, `Represents.withWord` and
  `Represents.tail` what they leave, and `Represents.attempt` puts the four together.
* `Represents.performAll` is the induction over the operations.
-/

namespace X86Listing

/-! ## Operations -/

/-- An operation on a stack. -/
inductive StackOp where
  | push (word : UInt32)
  | pop
  /-- Read the word that is `depth` slots above the top. -/
  | top (depth : UInt32)
deriving DecidableEq, Repr

/-- The answers of a list of operations, and the state after them.  An operation that fails
leaves the state as it was. -/
def StackOp.performAll {σ : Type} (attempt : σ → StackOp → Except Fault (Option UInt32 × σ))
    (state : σ) : List StackOp → List (Except Fault (Option UInt32)) × σ
  | [] => ([], state)
  | op :: ops =>
    match attempt state op with
    | .error fault =>
      let rest := performAll attempt state ops
      (.error fault :: rest.1, rest.2)
    | .ok (answer, state') =>
      let rest := performAll attempt state' ops
      (.ok answer :: rest.1, rest.2)

/-- One operation on a stack and its top. -/
def Stack.attempt (state : Stack × UInt32) :
    StackOp → Except Fault (Option UInt32 × Stack × UInt32)
  | .push word => (state.1.push state.2 word).map fun state' => (none, state')
  | .pop => (state.1.pop state.2).map fun (word, esp) => (some word, state.1, esp)
  | .top depth => (state.1.top state.2 depth.toNat).map fun word => (some word, state)

/-- The slots for a list of words. -/
structure SlotList where
  /-- The address of the slot that is filled last. -/
  base : UInt32
  /-- The number of slots. -/
  capacity : Nat

namespace SlotList

/-- The address of the slot that is `depth` slots above the top. -/
def slotAddress (slots : SlotList) (words : List UInt32) (depth : Nat) : Nat :=
  slots.base.toNat + 4 * (slots.capacity - words.length + depth)

/-- The fault of a read behind the last slot.  It shows the address of the read, or the
highest address of all if that is too large. -/
def underflow (slots : SlotList) (words : List UInt32) (depth : Nat) : Fault :=
  .stackUnderflow (UInt32.ofNat (min (slots.slotAddress words depth) 0xffffffff))

/-- One operation on a list of words.  The word pushed last is the first. -/
def attempt (slots : SlotList) (words : List UInt32) :
    StackOp → Except Fault (Option UInt32 × List UInt32)
  | .push word =>
    if words.length < slots.capacity then .ok (none, word :: words)
    else .error (.stackOverflow slots.base)
  | .pop =>
    match words with
    | [] => .error (slots.underflow words 0)
    | word :: rest => .ok (some word, rest)
  | .top depth =>
    match words[depth.toNat]? with
    | none => .error (slots.underflow words depth.toNat)
    | some word => .ok (some word, words)

end SlotList

/-! ## Stacks that stand for a list -/

/-- A stack and a top stand for a list of words. -/
structure Represents (slots : SlotList) (stack : Stack) (esp : UInt32) (words : List UInt32) :
    Prop where
  base_eq : stack.base = slots.base
  size_eq : stack.region.size = 4 * slots.capacity
  /-- The end of the stack is an address. -/
  end_lt : stack.base.toNat + 4 * slots.capacity < 2 ^ 32
  length_le : words.length ≤ slots.capacity
  /-- The words are all that is between the top and the end. -/
  esp_eq : esp.toNat + 4 * words.length = stack.base.toNat + 4 * slots.capacity
  loadWord?_eq : ∀ {depth : Nat} {word : UInt32}, words[depth]? = some word →
    stack.region.loadWord? (esp + UInt32.ofNat (4 * depth)) = some word

namespace Represents

variable {slots : SlotList} {stack : Stack} {esp : UInt32} {words : List UInt32}

/-- The empty stack stands for the empty list. -/
theorem new (count : Nat) (base : UInt32) :
    Represents ⟨base, min count (Stack.maxWords base)⟩
      (Stack.new count base) (Stack.new count base).limit [] where
  base_eq := rfl
  size_eq := rfl
  end_lt := Stack.fits_new count base
  length_le := Nat.zero_le _
  esp_eq := (Stack.fits_new count base).toNat_limit
  loadWord?_eq h := by cases h

/-! ### What the operations answer -/

section

variable (h : Represents slots stack esp words)
include h

theorem toNat_limit : stack.limit.toNat = stack.base.toNat + 4 * slots.capacity := by
  have hfits : stack.Fits := by
    rw [Stack.Fits, h.size_eq]
    exact h.end_lt
  rw [hfits.toNat_limit, h.size_eq]

theorem depth_eq : stack.depth esp = words.length := by
  have hlimit := h.toNat_limit
  have hesp := h.esp_eq
  rw [Stack.depth]
  omega

theorem slotAddress_eq (depth : Nat) :
    slots.slotAddress words depth = esp.toNat + 4 * depth := by
  have hbase := congrArg UInt32.toNat h.base_eq
  have hlength := h.length_le
  have hesp := h.esp_eq
  rw [SlotList.slotAddress]
  omega

/-- There is room for a word until the list is full.  The top is at the lowest slot then. -/
theorem push_eq (word : UInt32) :
    stack.push esp word =
      if words.length < slots.capacity then .ok (stack.withWord esp word, esp - 4)
      else .error (.stackOverflow slots.base) := by
  have hsize := h.size_eq
  have hesp := h.esp_eq
  split
  · next hroom => exact Stack.push_eq_ok (by omega) (by omega) word
  · next hfull =>
    have hlength := h.length_le
    have hlow : esp = stack.base := UInt32.toNat_inj.1 (by omega)
    have hover : esp < 4 ∨ esp - 4 < stack.base := by
      have hfour : (4 : UInt32).toNat = 4 := rfl
      rw [UInt32.lt_iff_toNat_lt, UInt32.lt_iff_toNat_lt, ← hlow]
      by_cases hlt : esp.toNat < 4
      · exact Or.inl (by omega)
      · rw [toNat_sub_four (by omega)]
        exact Or.inr (by omega)
    rw [Stack.push, if_pos hover, hlow, h.base_eq]

/-- A read answers a word of the list, or it is behind the last one. -/
theorem top_eq (depth : Nat) :
    stack.top esp depth =
      match words[depth]? with
      | none => .error (slots.underflow words depth)
      | some word => .ok word := by
  have hslot := h.slotAddress_eq depth
  have hsize := h.size_eq
  have hesp := h.esp_eq
  have hend := h.end_lt
  have hlength := h.length_le
  by_cases hwrap : 2 ^ 32 ≤ esp.toNat + 4 * depth
  · have hnone : words[depth]? = none := List.getElem?_eq_none (by omega)
    have hmin : min (slots.slotAddress words depth) 0xffffffff = 0xffffffff := by omega
    rw [Stack.top, if_pos hwrap, hnone, SlotList.underflow, hmin]
    rfl
  · have haddress : (esp + UInt32.ofNat (4 * depth)).toNat = esp.toNat + 4 * depth :=
      toNat_add_ofNat (by omega)
    have hlow : ¬esp + UInt32.ofNat (4 * depth) < stack.base := by
      rw [UInt32.lt_iff_toNat_lt, haddress]
      omega
    rw [Stack.top, if_neg hwrap]
    simp only [if_neg hlow]
    cases hword : words[depth]? with
    | some word => rw [h.loadWord?_eq hword]
    | none =>
      have hdepth : words.length ≤ depth := List.getElem?_eq_none_iff.1 hword
      have hbase : stack.region.base.toNat = stack.base.toNat := rfl
      have hmin : min (slots.slotAddress words depth) 0xffffffff = esp.toNat + 4 * depth := by
        omega
      have hout : stack.region.loadWord? (esp + UInt32.ofNat (4 * depth)) = none := by
        rw [Region.loadWord?, Region.offset?_eq_none (by omega), Option.map_none]
      have hsame : esp + UInt32.ofNat (4 * depth) = UInt32.ofNat (esp.toNat + 4 * depth) := by
        rw [UInt32.ofNat_add, UInt32.ofNat_toNat]
      rw [hout, SlotList.underflow, hmin, hsame]

end

/-! ### What they leave -/

/-- A word that was pushed is the first of the list. -/
theorem withWord (h : Represents slots stack esp words) (hroom : words.length < slots.capacity)
    (word : UInt32) : Represents slots (stack.withWord esp word) (esp - 4) (word :: words) := by
  have hsize := h.size_eq
  have hesp := h.esp_eq
  have htop : (esp - 4).toNat = esp.toNat - 4 := toNat_sub_four (by omega)
  refine ⟨h.base_eq, h.size_eq, h.end_lt, hroom, ?_, ?_⟩
  · show (esp - 4).toNat + 4 * (words.length + 1) = stack.base.toNat + 4 * slots.capacity
    omega
  · intro depth found hfound
    cases depth with
    | zero =>
      obtain rfl : word = found := Option.some.inj hfound
      exact (congrArg _ (UInt32.add_zero _)).trans
        (Stack.loadWord?_withWord (by omega) (by omega) word)
    | succ depth =>
      -- The slot is above the old top, where nothing was written.
      have hold : words[depth]? = some found := hfound
      have hdepth : depth < words.length := (List.getElem?_eq_some_iff.1 hold).1
      have hend := h.end_lt
      have haddress :
          esp - 4 + UInt32.ofNat (4 * (depth + 1)) = esp + UInt32.ofNat (4 * depth) := by
        apply UInt32.toNat_inj.1
        rw [toNat_add_ofNat (by omega), toNat_add_ofNat (by omega), htop]
        omega
      have hlength : (bytesOfWord word).length = 4 := rfl
      have hbase : stack.region.base.toNat = stack.base.toNat := rfl
      rw [haddress, ← h.loadWord?_eq hold]
      refine Region.loadWord?_writeAt_of_le ?_
      rw [toNat_add_ofNat (by omega)]
      omega

/-- With the top one slot higher the first word is not in the list any more. -/
theorem tail {word : UInt32} (h : Represents slots stack esp (word :: words)) :
    Represents slots stack (esp + 4) words := by
  have hesp : esp.toNat + 4 * (words.length + 1) = stack.base.toNat + 4 * slots.capacity :=
    h.esp_eq
  have hend := h.end_lt
  have hlt : esp.toNat + 4 < 2 ^ 32 := by omega
  have htop : (esp + 4).toNat = esp.toNat + 4 := toNat_add_ofNat hlt
  refine ⟨h.base_eq, h.size_eq, h.end_lt, Nat.le_of_succ_le h.length_le, by omega, ?_⟩
  intro depth found hfound
  have hdepth : depth < words.length := (List.getElem?_eq_some_iff.1 hfound).1
  have haddress :
      esp + 4 + UInt32.ofNat (4 * depth) = esp + UInt32.ofNat (4 * (depth + 1)) := by
    apply UInt32.toNat_inj.1
    rw [toNat_add_ofNat (by omega), toNat_add_ofNat (by omega), htop]
    omega
  have hnext : (word :: words)[depth + 1]? = some found := hfound
  rw [haddress]
  exact h.loadWord?_eq hnext

/-! ### Operations -/

/-- The same fault, or the same answer with a stack and a list that belong together. -/
def Agree (slots : SlotList) : Except Fault (Option UInt32 × Stack × UInt32) →
    Except Fault (Option UInt32 × List UInt32) → Prop
  | .ok (answer, stack, esp), .ok (answer', words) =>
    answer = answer' ∧ Represents slots stack esp words
  | .error fault, .error fault' => fault = fault'
  | _, _ => False

/-- An operation on a stack does what it does on the list. -/
theorem attempt (h : Represents slots stack esp words) (op : StackOp) :
    Agree slots (Stack.attempt (stack, esp) op) (slots.attempt words op) := by
  cases op with
  | push word =>
    simp only [Stack.attempt, SlotList.attempt, h.push_eq]
    split
    · next hroom => exact ⟨rfl, h.withWord hroom word⟩
    · exact rfl
  | pop =>
    simp only [Stack.attempt, SlotList.attempt, Stack.pop, h.top_eq]
    cases words with
    | nil => exact rfl
    | cons word rest => exact ⟨rfl, h.tail⟩
  | top depth =>
    simp only [Stack.attempt, SlotList.attempt, h.top_eq]
    cases words[depth.toNat]? with
    | none => exact rfl
    | some word => exact ⟨rfl, h⟩

/-- So do any number of operations. -/
theorem performAll (h : Represents slots stack esp words) (ops : List StackOp) :
    let last := (StackOp.performAll Stack.attempt (stack, esp) ops).2
    (StackOp.performAll Stack.attempt (stack, esp) ops).1 =
        (StackOp.performAll slots.attempt words ops).1 ∧
      Represents slots last.1 last.2 (StackOp.performAll slots.attempt words ops).2 := by
  induction ops generalizing stack esp words with
  | nil => exact ⟨rfl, h⟩
  | cons op ops ih =>
    have hagree := h.attempt op
    rw [StackOp.performAll, StackOp.performAll]
    cases hstack : Stack.attempt (stack, esp) op with
    | error fault =>
      cases hlist : slots.attempt words op with
      | error fault' =>
        rw [hstack, hlist] at hagree
        obtain rfl : fault = fault' := hagree
        obtain ⟨hanswers, hlast⟩ := ih h
        exact ⟨congrArg _ hanswers, hlast⟩
      | ok result =>
        rw [hstack, hlist] at hagree
        exact hagree.elim
    | ok result =>
      obtain ⟨answer, stack', esp'⟩ := result
      cases hlist : slots.attempt words op with
      | error fault =>
        rw [hstack, hlist] at hagree
        exact hagree.elim
      | ok result' =>
        obtain ⟨answer', words'⟩ := result'
        rw [hstack, hlist] at hagree
        obtain ⟨rfl, hnext⟩ := hagree
        obtain ⟨hanswers, hlast⟩ := ih hnext
        exact ⟨congrArg _ hanswers, hlast⟩

end Represents

/-- From an empty stack on, a sequence of operations has the answers that it has on an empty
list with as many slots, or with the most that have addresses.  Behind it the depth is the
length of the list, and the top is that number of words below the end, inside the stack. -/
theorem Stack.performAll_eq (count : Nat) (base : UInt32) (ops : List StackOp) :
    let slots : SlotList := ⟨base, min count ((0xffffffff - base.toNat) / 4)⟩
    let empty := Stack.new count base
    let (answers, stack, esp) := StackOp.performAll Stack.attempt (empty, empty.limit) ops
    let (expected, words) := StackOp.performAll slots.attempt [] ops
    answers = expected ∧ stack.depth esp = words.length ∧ words.length ≤ slots.capacity ∧
      stack.base = base ∧ stack.limit = empty.limit ∧
      esp.toNat + 4 * words.length = empty.limit.toNat ∧ base ≤ esp ∧ esp ≤ empty.limit := by
  intro slots empty
  have hempty : Represents slots empty empty.limit [] := .new count base
  have hlimit : empty.limit.toNat = base.toNat + 4 * slots.capacity := hempty.toNat_limit
  have hrun := hempty.performAll ops
  generalize StackOp.performAll Stack.attempt (empty, empty.limit) ops = run at hrun ⊢
  generalize StackOp.performAll slots.attempt [] ops = run' at hrun ⊢
  obtain ⟨answers, stack, esp⟩ := run
  obtain ⟨expected, words⟩ := run'
  obtain ⟨hanswers, hlast⟩ := hrun
  have hbase : stack.base = base := hlast.base_eq
  have hesp : esp.toNat + 4 * words.length = base.toNat + 4 * slots.capacity := by
    rw [← hbase]
    exact hlast.esp_eq
  have hend : stack.limit = empty.limit := by
    apply UInt32.toNat_inj.1
    rw [hlast.toNat_limit, hbase, hlimit]
  have hlength : words.length ≤ slots.capacity := hlast.length_le
  refine ⟨hanswers, hlast.depth_eq, hlength, hbase, hend, hesp.trans hlimit.symm, ?_, ?_⟩
  · exact UInt32.le_iff_toNat_le.2 (by omega)
  · exact UInt32.le_iff_toNat_le.2 (by omega)

/-- One slot: the second word finds no room, and the second pop finds none. -/
example :
    (StackOp.performAll (SlotList.attempt ⟨stackBase, 1⟩) []
      [.push 5, .push 6, .top 0, .pop, .pop]).1 =
      [.ok none, .error (.stackOverflow stackBase), .ok (some 5), .ok (some 5),
        .error (.stackUnderflow (stackBase + 4))] := rfl

end X86Listing
