import Mathlib.Data.List.Forall2
import X86Listing.Proofs.Instruction.PendingPush
import X86Listing.Proofs.Machine.Budget
import X86Listing.Proofs.Machine.StackTop

/-!
# Straight-line code on the stack

Code that only pushes, pops and computes in registers uses the stack like a list.  `run_straight`
is about a procedure of such code with a `retn` at its end: what each pop receives, and what the
return finds.

* `Instruction.IsStraight` are the instructions of such code, and `Procedure.IsStraight` are the
  procedures.
* `Stack.Holds` says that words are on the stack, one above the other.  `Stacked` says that a
  machine differs from another one by words pushed since, and beside that in its registers only.
* `Arrived` is what holds before every instruction: the words on the stack are those of the
  pending pushes, and the return sentinel is below them.  An instruction pushes, pops or does
  neither (`Arrived.push`, `Arrived.pop`, `Arrived.computes`), and `Arrived.exists_of_isStraight`
  is the induction over the instructions executed.
-/

namespace X86Listing

/-! ## Straight-line code -/

namespace Instruction

/-- The word that an instruction pushes. -/
def pushed? (file : RegisterFile) : Instruction → Option UInt32
  | reg .push r0 => some (file.value r0)
  | imm .push v0 => some v0
  | _ => none

/-- The instruction is a push, or it has registers and values as operands and another
destination than `esp`.  The slot counts here, because a write to a part of `esp` moves the stack
top too, but no such part has a name in a listing. -/
def IsStraight : Instruction → Prop
  | reg op r0 =>
    match op with
    | .push => True
    | .pop | .not | .inc | .dec => r0.slot ≠ Reg.esp.slot
    | .jump _ => False
  | imm op _ => op = .push
  | regReg op r0 _ | regImm op r0 _ => op = .cmp ∨ r0.slot ≠ Reg.esp.slot
  | shrd r0 _ _ | lea r0 _ _ _ _ => r0.slot ≠ Reg.esp.slot
  | retn | call _ | regMem .. | jumpTable .. | mem .. | memReg .. | memImm .. => False

instance : DecidablePred IsStraight
  | reg .push _ => inferInstanceAs (Decidable True)
  | reg .pop r0 | reg .not r0 | reg .inc r0 | reg .dec r0 =>
    inferInstanceAs (Decidable (r0.slot ≠ Reg.esp.slot))
  | reg (.jump _) _ => inferInstanceAs (Decidable False)
  | imm op _ => inferInstanceAs (Decidable (op = .push))
  | regReg op r0 _ | regImm op r0 _ =>
    inferInstanceAs (Decidable (op = .cmp ∨ r0.slot ≠ Reg.esp.slot))
  | shrd r0 _ _ | lea r0 _ _ _ _ => inferInstanceAs (Decidable (r0.slot ≠ Reg.esp.slot))
  | retn | call _ | regMem .. | jumpTable .. | mem .. | memReg .. | memImm .. =>
    inferInstanceAs (Decidable False)

/-- What is neither a push nor a pop leaves the stack top. -/
theorem IsStraight.sparesEsp {instruction : Instruction} (h : instruction.IsStraight)
    (hpush : instruction.isPush = false) (hpop : instruction.isPop = false) : instruction.SparesEsp := by
  cases instruction with
  | reg op r0 =>
    cases op with
    | push => cases hpush
    | pop => cases hpop
    | not | inc | dec => exact h
    | jump condition => exact h.elim
  | imm op v0 =>
    obtain rfl : op = .push := h
    cases hpush
  | regReg | regImm | shrd | lea => exact h
  | _ => exact h.elim

end Instruction

/-- The procedure is straight-line code with a `retn` behind it, and the code never pops more
than it has pushed. -/
structure Procedure.IsStraight (procedure : Procedure) (code : List Instruction) : Prop where
  instructions_eq : procedure.instructions.toList = code ++ [.retn]
  straight : ∀ instruction ∈ code, instruction.IsStraight
  neverUnderflows : NeverUnderflows code

/-! ## Words on a stack -/

/-- The words are on the stack from an address on, one above the other. -/
def Stack.Holds (stack : Stack) : UInt32 → List UInt32 → Prop
  | _, [] => True
  | esp, word :: words =>
    stack.region.loadWord? esp = some word ∧ stack.Holds (esp + 4) words

/-- Words are held by every stack with the same bytes there. -/
theorem Stack.Holds.congr {stack stack' : Stack} {esp : UInt32} {words : List UInt32}
    (h : stack.Holds esp words) (hwrap : esp.toNat + 4 * words.length < 2 ^ 32)
    (hload : ∀ address, esp ≤ address →
      stack'.region.loadWord? address = stack.region.loadWord? address) :
    stack'.Holds esp words := by
  induction words generalizing esp with
  | nil => trivial
  | cons word words ih =>
    rw [List.length_cons] at hwrap
    have hlt : esp.toNat + 4 < 2 ^ 32 := by omega
    have hnext : (esp + 4).toNat = esp.toNat + 4 := toNat_add_ofNat hlt
    refine ⟨(hload esp (UInt32.le_refl esp)).trans h.1, ih h.2 (by omega) ?_⟩
    intro address haddress
    rw [UInt32.le_iff_toNat_le, hnext] at haddress
    exact hload address (UInt32.le_iff_toNat_le.2 (by omega))

namespace Machine

variable {H : Host} {machine reached : Machine H} {words : List UInt32} {word : UInt32}

/-- The machine `reached` differs from `machine` in its registers and in words that are on the
stack below its old top. -/
structure Stacked (machine : Machine H) (words : List UInt32) (reached : Machine H) : Prop where
  esp_eq : reached.registers.esp.toNat + 4 * words.length = machine.registers.esp.toNat
  holds : reached.stack.Holds reached.registers.esp words
  base_eq : reached.stack.base = machine.stack.base
  size_eq : reached.stack.region.size = machine.stack.region.size
  loadByte?_eq : ∀ address, machine.registers.esp ≤ address →
    reached.stack.region.loadByte? address = machine.stack.region.loadByte? address
  rest_eq : reached = { machine with registers := reached.registers, stack := reached.stack }

namespace Stacked

theorem refl (machine : Machine H) : Stacked machine [] machine :=
  ⟨rfl, trivial, rfl, rfl, fun _ _ => rfl, rfl⟩

/-- A push adds a word. -/
theorem pushed (h : Stacked machine words reached)
    (hlow : reached.stack.base.toNat + 4 ≤ reached.registers.esp.toNat)
    (hhigh : reached.registers.esp.toNat ≤
      reached.stack.base.toNat + reached.stack.region.size) (word : UInt32) :
    Stacked machine (word :: words) (reached.pushed word) := by
  have hesp := h.esp_eq
  have hbound := machine.registers.esp.toNat_lt
  have htop : (reached.pushed word).registers.esp = reached.registers.esp - 4 :=
    RegisterFile.esp_setEsp
  have hsub : (reached.registers.esp - 4).toNat = reached.registers.esp.toNat - 4 :=
    toNat_sub_four (by omega)
  refine ⟨?_, ?_, h.base_eq, h.size_eq, ?_, ?_⟩
  · rw [htop, hsub, List.length_cons]
    omega
  · rw [htop]
    refine ⟨Stack.loadWord?_withWord hlow hhigh word, ?_⟩
    rw [UInt32.sub_add_cancel]
    exact h.holds.congr (by omega) fun address => loadWord?_pushed hlow
  · intro address haddress
    rw [UInt32.le_iff_toNat_le] at haddress
    rw [← h.loadByte?_eq address (UInt32.le_iff_toNat_le.2 haddress)]
    exact loadByte?_pushed hlow (UInt32.le_iff_toNat_le.2 (by omega))
  · rw [h.rest_eq]
    rfl

/-- Computing in other registers than `esp` leaves the words. -/
theorem withRegisters (h : Stacked machine words reached) {file : RegisterFile}
    (hesp : file.esp = reached.registers.esp) :
    Stacked machine words { reached with registers := file } := by
  refine ⟨?_, ?_, h.base_eq, h.size_eq, h.loadByte?_eq, ?_⟩
  · show file.esp.toNat + 4 * words.length = _
    rw [hesp, h.esp_eq]
  · show reached.stack.Holds file.esp words
    rw [hesp]
    exact h.holds
  · rw [h.rest_eq]

/-- A pop takes the first word. -/
theorem popped (h : Stacked machine (word :: words) reached) :
    Stacked machine words reached.popped := by
  have hesp : reached.registers.esp.toNat + 4 * (words.length + 1) =
      machine.registers.esp.toNat := h.esp_eq
  have hbound := machine.registers.esp.toNat_lt
  have htop : reached.popped.registers.esp = reached.registers.esp + 4 :=
    RegisterFile.esp_setEsp
  have hlt : reached.registers.esp.toNat + 4 < 2 ^ 32 := by omega
  have hadd : (reached.registers.esp + 4).toNat = reached.registers.esp.toNat + 4 :=
    toNat_add_ofNat hlt
  refine ⟨?_, ?_, h.base_eq, h.size_eq, h.loadByte?_eq, ?_⟩
  · rw [htop, hadd]
    omega
  · rw [htop]
    exact h.holds.2
  · rw [h.rest_eq]
    rfl

end Stacked

/-! ## Single instructions -/

variable {invoke : H.Function → Eval H Unit} {procedure : Procedure} {pc : Nat}
  {instruction : Instruction}

theorem step_isPush (h : procedure.instruction? pc = some instruction)
    (hpush : instruction.isPush = true)
    (hlow : machine.stack.base.toNat + 4 ≤ machine.registers.esp.toNat)
    (hhigh : machine.registers.esp.toNat ≤
      machine.stack.base.toNat + machine.stack.region.size) :
    ∃ word, instruction.pushed? machine.registers = some word ∧
      step invoke procedure pc machine = .ok (some (pc + 1)) (machine.pushed word) := by
  cases instruction with
  | reg op r0 =>
    cases op with
    | push => exact ⟨_, rfl, step_push h hlow hhigh⟩
    | _ => cases hpush
  | imm op v0 =>
    cases op with
    | push => exact ⟨v0, rfl, step_pushImm h hlow hhigh⟩
    | jump condition => cases hpush
  | _ => cases hpush

/-- An instruction that is neither a push nor a pop changes registers other than `esp`. -/
theorem step_computes (h : procedure.instruction? pc = some instruction)
    (hstraight : instruction.IsStraight) (hpush : instruction.isPush = false)
    (hpop : instruction.isPop = false) :
    ∃ file, file.esp = machine.registers.esp ∧
      step invoke procedure pc machine =
        .ok (some (pc + 1)) { machine with registers := file } := by
  have hretn : instruction ≠ .retn := by
    rintro rfl
    exact hstraight
  obtain ⟨file, hexecute⟩ : ∃ file, execute invoke procedure pc instruction machine =
      .ok (some (pc + 1)) { machine with registers := file } := by
    cases instruction with
    | reg op r0 =>
      cases op with
      | push => cases hpush
      | pop => cases hpop
      | not | inc | dec => exact ⟨_, rfl⟩
      | jump condition => exact hstraight.elim
    | imm op v0 =>
      obtain rfl : op = .push := hstraight
      cases hpush
    | regReg | regImm | shrd | lea => exact ⟨_, rfl⟩
    | _ => exact hstraight.elim
  refine ⟨file, ?_, ?_⟩
  · exact execute_keepsEsp (hstraight.sparesEsp hpush hpop) hretn _ _ _ hexecute
  · rw [step_eq_execute h, hexecute]

/-! ## Runs -/

/-- The stack top is inside the stack, and there is room below it for the return sentinel and
for all words that the code ever has on the stack. -/
structure HasRoom (machine : Machine H) (code : List Instruction) : Prop where
  esp_le : machine.registers.esp ≤ machine.stack.limit
  room : ∀ k ≤ code.length,
    machine.stack.base.toNat + 4 * (depthAt code k + 1) ≤ machine.registers.esp.toNat

theorem HasRoom.toNat_esp_le {code : List Instruction} (h : machine.HasRoom code) :
    machine.registers.esp.toNat ≤ machine.stack.base.toNat + machine.stack.region.size :=
  Nat.le_trans (UInt32.le_iff_toNat_le.1 h.esp_le) (Stack.toNat_limit_le _)

/-- A run executes the instruction at `i` after the `i` before it, and this pushes a word. -/
def PushesAt (invoke : H.Function → Eval H Unit) (procedure : Procedure) (machine : Machine H)
    (i : Nat) (word : UInt32) : Prop :=
  ∃ instruction reached, procedure.instruction? i = some instruction ∧
    Reached invoke procedure i machine (some i) reached ∧
    instruction.pushed? reached.registers = some word ∧
    step invoke procedure i reached = .ok (some (i + 1)) (reached.pushed word)

/-- A run executes the instruction at `j` after the `j` before it, and this pops a word into a
register. -/
def PopsAt (invoke : H.Function → Eval H Unit) (procedure : Procedure) (machine : Machine H)
    (j : Nat) (word : UInt32) : Prop :=
  ∃ r0 reached, procedure.instruction? j = some (.reg .pop r0) ∧
    Reached invoke procedure j machine (some j) reached ∧
    reached.stack.region.loadWord? reached.registers.esp = some word ∧
    step invoke procedure j reached = .ok (some (j + 1)) { reached.popped with
      registers := reached.popped.registers.set r0 word }

section Straight

variable {code : List Instruction} (hprocedure : procedure.IsStraight code)
include hprocedure

theorem length_of_isStraight : procedure.length = code.length + 1 := by
  have hlength := congrArg List.length hprocedure.instructions_eq
  rw [Array.length_toList, List.length_append] at hlength
  exact hlength

theorem instruction?_of_isStraight (i : Nat) :
    procedure.instruction? i = (code ++ [.retn])[i]? := by
  rw [← hprocedure.instructions_eq, Array.getElem?_toList, Procedure.instruction?]

theorem lt_length_of_isStraight {i : Nat} (hi : i ≤ code.length) : i < procedure.length := by
  rw [length_of_isStraight hprocedure]
  exact Nat.lt_succ_of_le hi

theorem found_of_isStraight {i : Nat} (h : code[i]? = some instruction) :
    i < procedure.length ∧ procedure.instruction? i = some instruction := by
  have hi : i < code.length := (List.getElem?_eq_some_iff.1 h).1
  refine ⟨lt_length_of_isStraight hprocedure (Nat.le_of_lt hi), ?_⟩
  rw [instruction?_of_isStraight hprocedure, List.getElem?_append_left hi, h]

theorem instruction?_length_of_isStraight :
    procedure.instruction? code.length = some .retn := by
  rw [instruction?_of_isStraight hprocedure, List.getElem?_concat_length]

end Straight

/-- A run on `machine` executes the instructions up to `k` one after the other.  The words of the
pending pushes are on the stack of `reached` then, and the return sentinel is below them. -/
structure Arrived (invoke : H.Function → Eval H Unit) (procedure : Procedure)
    (code : List Instruction) (machine : Machine H) (k : Nat) (words : List UInt32)
    (reached : Machine H) : Prop where
  run : Reached invoke procedure k machine (some k) reached
  pushes : List.Forall₂ (PushesAt invoke procedure machine) (pendingPushes code k) words
  stacked : Stacked machine (words ++ [returnSentinel]) reached

namespace Arrived

variable {code : List Instruction} {k : Nat}

theorem zero (invoke : H.Function → Eval H Unit) (procedure : Procedure)
    (hroom : machine.HasRoom code) :
    Arrived invoke procedure code machine 0 [] (machine.pushed returnSentinel) := by
  have hlow : machine.stack.base.toNat + 4 ≤ machine.registers.esp.toNat :=
    hroom.room 0 (Nat.zero_le _)
  have hhigh := hroom.toNat_esp_le
  exact ⟨⟨_, push_eq_ok hlow hhigh _, .refl ..⟩, .nil, (Stacked.refl machine).pushed hlow hhigh _⟩

section Step

variable (hprocedure : procedure.IsStraight code)
  (h : Arrived invoke procedure code machine k words reached)
include hprocedure h

theorem length_words (hk : k ≤ code.length) : words.length = depthAt code k := by
  rw [← h.pushes.length_eq, length_pendingPushes hprocedure.neverUnderflows hk]

/-- The word of the first pending push is at the stack top. -/
theorem top (hk : k ≤ code.length) (hdepth : 0 < depthAt code k) :
    ∃ i rest word words', pendingPushes code k = i :: rest ∧ words = word :: words' ∧
      IsPending code i k 0 ∧ PushesAt invoke procedure machine i word ∧
      List.Forall₂ (PushesAt invoke procedure machine) rest words' ∧
      reached.stack.region.loadWord? reached.registers.esp = some word := by
  obtain ⟨i, rest, hpending, hisPending⟩ :=
    exists_pendingPushes_eq_cons hprocedure.neverUnderflows hk hdepth
  have hpushes := h.pushes
  rw [hpending] at hpushes
  obtain ⟨word, words', hword, hrest, rfl⟩ := List.forall₂_cons_left_iff.1 hpushes
  exact ⟨i, rest, word, words', hpending, rfl, hisPending, hword, hrest, h.stacked.holds.1⟩

/-- A push adds its word. -/
theorem push (hroom : machine.HasRoom code) (hfound : code[k]? = some instruction)
    (hpush : instruction.isPush = true) :
    ∃ word, Arrived invoke procedure code machine (k + 1) (word :: words)
      (reached.pushed word) := by
  have hk : k < code.length := (List.getElem?_eq_some_iff.1 hfound).1
  obtain ⟨hpc, hinstruction⟩ := found_of_isStraight hprocedure hfound
  -- The depth behind the push is one that there is room for.
  have hdepth : depthAt code (k + 1) = words.length + 1 := by
    rw [h.length_words hprocedure (Nat.le_of_lt hk),
      depthAt_push hprocedure.neverUnderflows hfound hpush]
  have hbelow := hroom.room (k + 1) hk
  have hhigh := hroom.toNat_esp_le
  have hesp := h.stacked.esp_eq
  rw [List.length_append, List.length_singleton] at hesp
  have hbase := congrArg UInt32.toNat h.stacked.base_eq
  have hsize := h.stacked.size_eq
  have hlow : reached.stack.base.toNat + 4 ≤ reached.registers.esp.toNat := by omega
  have hinside : reached.registers.esp.toNat ≤
      reached.stack.base.toNat + reached.stack.region.size := by omega
  obtain ⟨word, hword, hstep⟩ := step_isPush hinstruction hpush hlow hinside
  refine ⟨word, h.run.snoc hpc hstep, ?_, h.stacked.pushed hlow hinside word⟩
  rw [pendingPushes_push hfound hpush]
  exact .cons ⟨_, reached, hinstruction, h.run, hword, hstep⟩ h.pushes

/-- A pop receives the word of the push that it matches. -/
theorem pop {r0 : Reg} (hfound : code[k]? = some (.reg .pop r0)) :
    ∃ i word rest reached', IsPending code i k 0 ∧
      PushesAt invoke procedure machine i word ∧ PopsAt invoke procedure machine k word ∧
      Arrived invoke procedure code machine (k + 1) rest reached' := by
  have hk : k < code.length := (List.getElem?_eq_some_iff.1 hfound).1
  have hdepth : 0 < depthAt code k := by
    rw [depthAt_pop hprocedure.neverUnderflows hfound rfl rfl]
    exact Nat.succ_pos _
  obtain ⟨hpc, hinstruction⟩ := found_of_isStraight hprocedure hfound
  have hslot : r0.slot ≠ Reg.esp.slot := hprocedure.straight _ (List.mem_of_getElem? hfound)
  obtain ⟨i, rest, word, words', hpending, rfl, hisPending, hword, hrest, hload⟩ :=
    h.top hprocedure (Nat.le_of_lt hk) hdepth
  have hstep : step invoke procedure k reached = _ := step_pop hinstruction hload
  refine ⟨i, word, words', _, hisPending, hword,
    ⟨r0, reached, hinstruction, h.run, hload, hstep⟩, h.run.snoc hpc hstep, ?_,
    h.stacked.popped.withRegisters (RegisterFile.esp_set hslot)⟩
  rw [pendingPushes_pop hfound rfl rfl, hpending]
  exact hrest

/-- Everything else leaves the words. -/
theorem computes (hfound : code[k]? = some instruction) (hpush : instruction.isPush = false)
    (hpop : instruction.isPop = false) :
    ∃ reached', Arrived invoke procedure code machine (k + 1) words reached' := by
  obtain ⟨hpc, hinstruction⟩ := found_of_isStraight hprocedure hfound
  have hstraight := hprocedure.straight _ (List.mem_of_getElem? hfound)
  obtain ⟨file, hesp, hstep⟩ := step_computes hinstruction hstraight hpush hpop
  refine ⟨_, h.run.snoc hpc hstep, ?_, h.stacked.withRegisters hesp⟩
  rw [pendingPushes_neither hfound hpush hpop]
  exact h.pushes

end Step

/-- The run comes to every instruction of the code, and to the return behind it. -/
theorem exists_of_isStraight (invoke : H.Function → Eval H Unit)
    (hprocedure : procedure.IsStraight code) (hroom : machine.HasRoom code)
    (hk : k ≤ code.length) :
    ∃ words reached, Arrived invoke procedure code machine k words reached := by
  induction k with
  | zero => exact ⟨_, _, zero invoke procedure hroom⟩
  | succ k ih =>
    obtain ⟨words, reached, h⟩ := ih (Nat.le_of_succ_le hk)
    obtain ⟨instruction, hfound⟩ : ∃ instruction, code[k]? = some instruction :=
      ⟨_, List.getElem?_eq_getElem hk⟩
    rcases instruction.isPush_or_isPop_or_neither with hpush | ⟨r0, rfl⟩ | ⟨hpush, hpop⟩
    · obtain ⟨word, h'⟩ := h.push hprocedure hroom hfound hpush
      exact ⟨_, _, h'⟩
    · obtain ⟨-, -, rest, reached', -, -, -, h'⟩ := h.pop hprocedure hfound
      exact ⟨rest, reached', h'⟩
    · obtain ⟨reached', h'⟩ := h.computes hprocedure hfound hpush hpop
      exact ⟨words, reached', h'⟩

section Return

variable (hprocedure : procedure.IsStraight code)
  (h : Arrived invoke procedure code machine code.length words reached)
  (hload : reached.stack.region.loadWord? reached.registers.esp = some word)
include hprocedure h hload

/-- The return ends the run if it finds the sentinel. -/
theorem endsAfter (hword : word = returnSentinel) :
    EndsAfter invoke procedure procedure.length machine reached.popped := by
  subst hword
  have hpc := lt_length_of_isStraight hprocedure (Nat.le_refl _)
  have hstep : step invoke procedure code.length reached = _ :=
    step_retn (instruction?_length_of_isStraight hprocedure) hload
  rw [length_of_isStraight hprocedure]
  exact ⟨none, h.run.snoc hpc hstep, trivial⟩

/-- The return faults if it finds another word. -/
theorem faultsAfter (hword : word ≠ returnSentinel) :
    FaultsAfter invoke procedure code.length machine (.corruptReturn word) reached.popped :=
  ⟨code.length, reached, h.run, lt_length_of_isStraight hprocedure (Nat.le_refl _),
    step_retn_corrupt (instruction?_length_of_isStraight hprocedure) hload hword⟩

end Return

end Arrived

/-- Straight-line code that never pops more than it has pushed, on a machine with room for its
words.

* Every pop receives the word of the push that it matches, which is the pending one with no word
  above its own.
* If every push is matched, the procedure returns after as many instructions as it has.  The
  stack top, the bytes above it and the data segment are what they were.
* If pushes are left over, the return finds the word of the last of them.  It faults, unless
  that word is the sentinel. -/
theorem run_straight (invoke : H.Function → Eval H Unit) {procedure : Procedure}
    {code : List Instruction} (hprocedure : procedure.IsStraight code) {machine : Machine H}
    (hroom : machine.HasRoom code) :
    (∀ j r0, code[j]? = some (.reg .pop r0) →
      ∃ i word, IsPending code i j 0 ∧
        PushesAt invoke procedure machine i word ∧ PopsAt invoke procedure machine j word) ∧
    (code.countP Instruction.isPush = code.countP Instruction.isPop →
      ∃ final,
        (∀ budget, procedure.length ≤ budget →
          runWithBudget invoke procedure budget machine = .ok procedure.length final ∧
            run invoke budget procedure machine = .ok () final) ∧
        final.registers.esp = machine.registers.esp ∧ final.data = machine.data ∧
        ∀ address, machine.registers.esp ≤ address →
          final.stack.region.loadByte? address = machine.stack.region.loadByte? address) ∧
    (code.countP Instruction.isPop < code.countP Instruction.isPush →
      ∃ i word final, IsPending code i code.length 0 ∧
        PushesAt invoke procedure machine i word ∧
        ∀ budget, procedure.length ≤ budget →
          (word ≠ returnSentinel →
            runWithBudget invoke procedure budget machine = .error (.corruptReturn word) final ∧
              run invoke budget procedure machine = .error (.corruptReturn word) final) ∧
          (word = returnSentinel →
            runWithBudget invoke procedure budget machine = .ok procedure.length final ∧
              run invoke budget procedure machine = .ok () final)) := by
  obtain ⟨words, reached, h⟩ :=
    Arrived.exists_of_isStraight invoke hprocedure hroom (Nat.le_refl code.length)
  have hdepth : depthAt code code.length =
      code.countP Instruction.isPush - code.countP Instruction.isPop := by
    rw [depthAt, List.take_length]
  refine ⟨?_, ?_, ?_⟩
  · intro j r0 hfound
    have hj : j < code.length := (List.getElem?_eq_some_iff.1 hfound).1
    obtain ⟨words, reached, h⟩ :=
      Arrived.exists_of_isStraight invoke hprocedure hroom (Nat.le_of_lt hj)
    obtain ⟨i, word, -, -, hpending, hpush, hpop, -⟩ := h.pop hprocedure hfound
    exact ⟨i, word, hpending, hpush, hpop⟩
  · intro hbalanced
    obtain rfl : words = [] := by
      apply List.eq_nil_of_length_eq_zero
      rw [h.length_words hprocedure (Nat.le_refl _), hdepth, hbalanced, Nat.sub_self]
    have hends := h.endsAfter hprocedure h.stacked.holds.1 rfl
    have hstacked := h.stacked.popped
    refine ⟨reached.popped, fun budget hbudget => ?_, UInt32.toNat_inj.1 hstacked.esp_eq, ?_,
      hstacked.loadByte?_eq⟩
    · have hrun := hends.runWithBudget_eq hbudget
      exact ⟨hrun, run_eq_ok hrun⟩
    · rw [hstacked.rest_eq]
  · intro hleft
    have hpos : 0 < depthAt code code.length := by
      rw [hdepth]
      exact Nat.sub_pos_of_lt hleft
    obtain ⟨i, -, word, -, -, -, hpending, hword, -, hload⟩ :=
      h.top hprocedure (Nat.le_refl _) hpos
    refine ⟨i, word, reached.popped, hpending, hword, ?_⟩
    intro budget hbudget
    constructor
    · intro hne
      have hlt : code.length < budget := by
        rw [length_of_isStraight hprocedure] at hbudget
        exact hbudget
      have hrun := (h.faultsAfter hprocedure hload hne).runWithBudget_eq hlt
      exact ⟨hrun, run_eq_error hrun⟩
    · intro heq
      have hrun := (h.endsAfter hprocedure hload heq).runWithBudget_eq hbudget
      exact ⟨hrun, run_eq_ok hrun⟩

/-- Code that pushes two words and pops them into other registers, the second word first. -/
def savingCode : List Instruction :=
  [.imm .push 7, .reg .push .al, .regImm .mov .eax 5, .reg .pop .cl, .reg .pop .edx]

/-- Code that leaves a word on the stack. -/
def leavingCode : List Instruction :=
  [.imm .push 7, .imm .push 9, .reg .pop .ecx]

/-- A procedure of some instructions with a `retn` behind them. -/
def procedureOf (code : List Instruction) : Procedure :=
  ⟨"f", .empty, .empty, (code ++ [Instruction.retn]).toArray⟩

theorem run_straight_procedureOf :
    ∃ machine : Machine ⟨Unit, Unit⟩,
      (∃ word, PushesAt (fun _ => pure ()) (procedureOf savingCode) machine 1 word ∧
        PopsAt (fun _ => pure ()) (procedureOf savingCode) machine 3 word) ∧
      (∃ final, run (fun _ => pure ()) 6 (procedureOf savingCode) machine = .ok () final ∧
        final.registers.esp = machine.registers.esp) ∧
      ∃ final, run (fun _ => pure ()) 4 (procedureOf leavingCode) machine =
        .error (.corruptReturn 7) final := by
  let machine : Machine ⟨Unit, Unit⟩ := build ⟨16, 4⟩ ()
  have hsaving : (procedureOf savingCode).IsStraight savingCode :=
    ⟨rfl, by decide, by decide⟩
  have hleaving : (procedureOf leavingCode).IsStraight leavingCode :=
    ⟨rfl, by decide, by decide⟩
  have hmatched : IsPending savingCode 1 3 0 :=
    isPending_of_getElem? hsaving.neverUnderflows (by decide) rfl
  have hleft : IsPending leavingCode 0 3 0 :=
    isPending_of_getElem? hleaving.neverUnderflows (by decide) rfl
  have hsavingRoom : machine.HasRoom savingCode := ⟨by decide, by decide⟩
  have hleavingRoom : machine.HasRoom leavingCode := ⟨by decide, by decide⟩
  obtain ⟨hpops, hreturns, -⟩ := run_straight (fun _ => pure ()) hsaving hsavingRoom
  obtain ⟨-, -, hfaults⟩ := run_straight (fun _ => pure ()) hleaving hleavingRoom
  refine ⟨machine, ?_, ?_, ?_⟩
  · obtain ⟨i, word, hpending, hpush, hpop⟩ := hpops 3 .cl rfl
    obtain rfl := hpending.unique hsaving.neverUnderflows hmatched
    exact ⟨word, hpush, hpop⟩
  · obtain ⟨final, hrun, hesp, -⟩ := hreturns rfl
    exact ⟨final, (hrun 6 (Nat.le_refl 6)).2, hesp⟩
  · obtain ⟨i, word, final, hpending, hpush, hrun⟩ := hfaults (by decide)
    obtain rfl := hpending.unique hleaving.neverUnderflows hleft
    obtain ⟨instruction, reached, hinstruction, -, hword, -⟩ := hpush
    cases hinstruction
    cases hword
    exact ⟨final, ((hrun 4 (Nat.le_refl 4)).1 (by decide)).2⟩

end Machine

end X86Listing
