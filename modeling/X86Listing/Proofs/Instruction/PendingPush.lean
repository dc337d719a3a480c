import X86Listing.Instruction.Basic

/-!
# Pushes and the pops that match them

In code without jumps, pushes and pops match each other like brackets.  This can be read off the
code, without a machine.

* `depthAt` is the number of words on the stack behind the first instructions.
  `NeverUnderflows` says that it never falls below zero.
* `IsPending` says that the word of a push has not been popped, and how many words are above it.
  A pop matches the pending push whose word has none above it.
* `pendingPushes` lists these pushes, the last one first.  It goes through the code once, as
  an execution does.  `length_pendingPushes` and `isPending_of_getElem?` say that it has as many
  entries as there are words on the stack, and that they are what `IsPending` says.
-/

namespace X86Listing

/-! ## Pushes and pops -/

namespace Instruction

/-- The instruction pushes a word. -/
def isPush : Instruction → Bool
  | reg .push _ | imm .push _ => true
  | _ => false

/-- The instruction pops a word into a register. -/
def isPop : Instruction → Bool
  | reg .pop _ => true
  | _ => false

/-- An instruction is a push, a pop, or neither. -/
theorem isPush_or_isPop_or_neither (instruction : Instruction) :
    instruction.isPush = true ∨ (∃ r0, instruction = reg .pop r0) ∨
      instruction.isPush = false ∧ instruction.isPop = false := by
  cases instruction with
  | reg op r0 =>
    cases op with
    | push => exact Or.inl rfl
    | pop => exact Or.inr (Or.inl ⟨r0, rfl⟩)
    | _ => exact Or.inr (Or.inr ⟨rfl, rfl⟩)
  | imm op v0 =>
    cases op with
    | push => exact Or.inl rfl
    | jump condition => exact Or.inr (Or.inr ⟨rfl, rfl⟩)
  | _ => exact Or.inr (Or.inr ⟨rfl, rfl⟩)

theorem isPop_of_isPush {instruction : Instruction} (h : instruction.isPush = true) :
    instruction.isPop = false := by
  cases instruction with
  | reg op r0 =>
    cases op with
    | push => rfl
    | _ => cases h
  | imm op v0 => rfl
  | _ => cases h

end Instruction

/-! ## Depth -/

/-- The number of words that the first `k` instructions leave on the stack. -/
def depthAt (code : List Instruction) (k : Nat) : Nat :=
  (code.take k).countP Instruction.isPush - (code.take k).countP Instruction.isPop

/-- No beginning of the code has more pops than pushes. -/
def NeverUnderflows (code : List Instruction) : Prop :=
  ∀ k ≤ code.length,
    (code.take k).countP Instruction.isPop ≤ (code.take k).countP Instruction.isPush

instance (code : List Instruction) : Decidable (NeverUnderflows code) :=
  inferInstanceAs (Decidable (∀ k ≤ code.length, _))

/-- The word of the push at `i` is on the stack behind the first `k` instructions, with `above`
words above it.  The instructions between have pushed these, and have never popped more than
they had pushed. -/
structure IsPending (code : List Instruction) (i k above : Nat) : Prop where
  lt : i < k
  isPush : ∃ instruction, code[i]? = some instruction ∧ instruction.isPush = true
  depthAt_eq : depthAt code k = depthAt code (i + 1) + above
  depthAt_le : ∀ m, i < m → m ≤ k → depthAt code (i + 1) ≤ depthAt code m

section Step

variable {code : List Instruction} {i k above : Nat} {instruction : Instruction}

theorem countP_take_succ (h : code[k]? = some instruction) (p : Instruction → Bool) :
    (code.take (k + 1)).countP p = (code.take k).countP p + if p instruction then 1 else 0 := by
  rw [List.take_add_one, h, List.countP_append, Option.toList_some, List.countP_singleton]

/-- One more instruction leaves the word there if the depth is still above it. -/
theorem IsPending.snoc (h : IsPending code i k above) {above' : Nat}
    (hdepth : depthAt code (k + 1) = depthAt code (i + 1) + above') :
    IsPending code i (k + 1) above' := by
  refine ⟨Nat.lt_succ_of_lt h.lt, h.isPush, hdepth, fun m hlt hle => ?_⟩
  rcases Nat.lt_or_eq_of_le hle with hm | rfl
  · exact h.depthAt_le m hlt (Nat.le_of_lt_succ hm)
  · rw [hdepth]
    exact Nat.le_add_right ..

theorem isPending_self (h : code[k]? = some instruction) (hpush : instruction.isPush = true) :
    IsPending code k (k + 1) 0 := by
  refine ⟨Nat.lt_succ_self k, ⟨instruction, h, hpush⟩, rfl, fun m hlt hle => ?_⟩
  obtain rfl : m = k + 1 := Nat.le_antisymm hle hlt
  exact Nat.le_refl _

variable (hcode : NeverUnderflows code) (h : code[k]? = some instruction)
include hcode h

theorem depthAt_push (hpush : instruction.isPush = true) :
    depthAt code (k + 1) = depthAt code k + 1 := by
  have hpop := Instruction.isPop_of_isPush hpush
  have hle := hcode k (Nat.le_of_lt (List.getElem?_eq_some_iff.1 h).1)
  rw [depthAt, depthAt, countP_take_succ h, countP_take_succ h, hpush, hpop]
  simp only [Bool.false_eq_true, if_true, if_false]
  omega

theorem depthAt_pop (hpush : instruction.isPush = false) (hpop : instruction.isPop = true) :
    depthAt code k = depthAt code (k + 1) + 1 := by
  have hle := hcode (k + 1) (List.getElem?_eq_some_iff.1 h).1
  rw [countP_take_succ h, countP_take_succ h, hpush, hpop] at hle
  rw [depthAt, depthAt, countP_take_succ h, countP_take_succ h, hpush, hpop]
  simp only [Bool.false_eq_true, if_true, if_false] at hle ⊢
  omega

omit hcode in
theorem depthAt_neither (hpush : instruction.isPush = false) (hpop : instruction.isPop = false) :
    depthAt code (k + 1) = depthAt code k := by
  rw [depthAt, depthAt, countP_take_succ h, countP_take_succ h, hpush, hpop]
  rfl

end Step

/-- There is one such push at most. -/
theorem IsPending.unique {code : List Instruction} {i i' k above : Nat}
    (hcode : NeverUnderflows code) (h : IsPending code i k above)
    (h' : IsPending code i' k above) : i = i' := by
  -- The word of a later push would be one word higher.
  have hnot : ∀ {i i'}, IsPending code i k above → IsPending code i' k above → ¬i < i' := by
    intro i i' h h' hlt
    obtain ⟨instruction, hfound, hpush⟩ := h'.isPush
    have hbefore := h.depthAt_le i' hlt (Nat.le_of_lt h'.lt)
    have hpushed := depthAt_push hcode hfound hpush
    have hdepth := h.depthAt_eq
    have hdepth' := h'.depthAt_eq
    omega
  exact Nat.le_antisymm (Nat.not_lt.1 (hnot h' h)) (Nat.not_lt.1 (hnot h h'))

/-! ## The list of pending pushes -/

/-- The pushes among the first `k` instructions whose words have not been popped by these, the
last one first. -/
def pendingPushes (code : List Instruction) : Nat → List Nat
  | 0 => []
  | k + 1 =>
    match code[k]? with
    | none => pendingPushes code k
    | some instruction =>
      if instruction.isPush then k :: pendingPushes code k
      else if instruction.isPop then (pendingPushes code k).tail
      else pendingPushes code k

section PendingPushes

variable {code : List Instruction} {k : Nat} {instruction : Instruction}

section Step

variable (h : code[k]? = some instruction)
include h

theorem pendingPushes_push (hpush : instruction.isPush = true) :
    pendingPushes code (k + 1) = k :: pendingPushes code k := by
  simp only [pendingPushes, h, if_pos hpush]

theorem pendingPushes_pop (hpush : instruction.isPush = false)
    (hpop : instruction.isPop = true) :
    pendingPushes code (k + 1) = (pendingPushes code k).tail := by
  simp only [pendingPushes, h, hpush, hpop, Bool.false_eq_true, if_true, if_false]

theorem pendingPushes_neither (hpush : instruction.isPush = false)
    (hpop : instruction.isPop = false) :
    pendingPushes code (k + 1) = pendingPushes code k := by
  simp only [pendingPushes, h, hpush, hpop, Bool.false_eq_true, if_false]

end Step

variable (hcode : NeverUnderflows code)
include hcode

/-- As many pushes are pending as there are words on the stack. -/
theorem length_pendingPushes (hk : k ≤ code.length) :
    (pendingPushes code k).length = depthAt code k := by
  induction k with
  | zero => rfl
  | succ k ih =>
    have hbefore := ih (Nat.le_of_succ_le hk)
    obtain ⟨instruction, hfound⟩ : ∃ instruction, code[k]? = some instruction :=
      ⟨_, List.getElem?_eq_getElem hk⟩
    rcases instruction.isPush_or_isPop_or_neither with hpush | ⟨r0, rfl⟩ | ⟨hpush, hpop⟩
    · rw [pendingPushes_push hfound hpush, List.length_cons, hbefore,
        depthAt_push hcode hfound hpush]
    · rw [pendingPushes_pop hfound rfl rfl, List.length_tail, hbefore,
        depthAt_pop hcode hfound rfl rfl, Nat.add_sub_cancel]
    · rw [pendingPushes_neither hfound hpush hpop, hbefore, depthAt_neither hfound hpush hpop]

/-- The pushes in the list are pending, and those before one of them are of the words above. -/
theorem isPending_of_getElem? (hk : k ≤ code.length) {i above : Nat}
    (h : (pendingPushes code k)[above]? = some i) : IsPending code i k above := by
  induction k generalizing above with
  | zero => cases h
  | succ k ih =>
    have hle := Nat.le_of_succ_le hk
    obtain ⟨instruction, hfound⟩ : ∃ instruction, code[k]? = some instruction :=
      ⟨_, List.getElem?_eq_getElem hk⟩
    rcases instruction.isPush_or_isPop_or_neither with hpush | ⟨r0, rfl⟩ | ⟨hpush, hpop⟩
    · rw [pendingPushes_push hfound hpush] at h
      cases above with
      | zero =>
        obtain rfl : k = i := Option.some.inj h
        exact isPending_self hfound hpush
      | succ above =>
        have hbefore := ih hle h
        refine hbefore.snoc ?_
        rw [depthAt_push hcode hfound hpush, hbefore.depthAt_eq, Nat.add_assoc]
    · rw [pendingPushes_pop hfound rfl rfl, List.getElem?_tail] at h
      have hbefore := ih hle h
      refine hbefore.snoc (Nat.add_right_cancel (m := 1) ?_)
      rw [← depthAt_pop hcode hfound rfl rfl, hbefore.depthAt_eq, Nat.add_assoc]
    · rw [pendingPushes_neither hfound hpush hpop] at h
      have hbefore := ih hle h
      refine hbefore.snoc ?_
      rw [depthAt_neither hfound hpush hpop, hbefore.depthAt_eq]

/-- Words on the stack are those of pending pushes. -/
theorem exists_pendingPushes_eq_cons (hk : k ≤ code.length) (hdepth : 0 < depthAt code k) :
    ∃ i rest, pendingPushes code k = i :: rest ∧ IsPending code i k 0 := by
  rw [← length_pendingPushes hcode hk] at hdepth
  obtain ⟨i, rest, hpending⟩ := List.exists_cons_of_length_pos hdepth
  refine ⟨i, rest, hpending, isPending_of_getElem? hcode hk ?_⟩
  rw [hpending, List.getElem?_cons_zero]

end PendingPushes

end X86Listing
