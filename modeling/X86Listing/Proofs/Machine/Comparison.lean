import X86Listing.Proofs.Machine.Arithmetic
import X86Listing.Proofs.Machine.Effects
import X86Listing.Proofs.Machine.OperandShapes

/-!
# Comparisons and jumps

A comparison and the jump behind it share nothing but the flags.  Both come in several shapes,
and `step_comparison_jump` is about every pair of shapes: the jump is taken if the two words are
related as its condition asks, and then it goes to its target, wherever the target was found.

* `comparands?` are the words that a comparison compares, the left one first.
  `step_comparison` says that the flags are all that it changes.
* `target?` is the code address that a jump goes to.  `step_jump_taken` and
  `step_jump_passed` are the two ways in which a jump is executed, and `target?_compared` says
  that a comparison before it makes no difference to the target.
* `jump_eq_ok` and `jump_eq_error` say where a jump to an address ends.
-/

namespace X86Listing

/-- The condition of a jump, in any of its three shapes. -/
def Instruction.condition? : Instruction → Option Condition
  | reg (.jump condition) _ | imm (.jump condition) _ | jumpTable condition _ _ _ =>
    some condition
  | _ => none

namespace Machine

variable {H : Host} {invoke : H.Function → Eval H Unit} {procedure : Procedure} {pc : Nat}
  {machine : Machine H} {instruction : Instruction}

/-! ## Operands of comparisons and jumps -/

/-- The words that a comparison compares, in any of its five shapes.  There are none if an
operand in memory is not mapped. -/
def comparands? (machine : Machine H) : Instruction → Option (UInt32 × UInt32)
  | .regReg .cmp r0 r1 => some (machine.registers.value r0, machine.registers.value r1)
  | .regImm .cmp r0 v0 => some (machine.registers.value r0, v0)
  | .regMem .cmp r0 operand =>
    (machine.operand? operand).map fun word => (machine.registers.value r0, word)
  | .memReg .cmp operand r1 =>
    (machine.operand? operand).map fun word => (word, machine.registers.value r1)
  | .memImm .cmp operand v1 => (machine.operand? operand).map fun word => (word, v1)
  | _ => none

/-- The code address that a jump goes to if it is taken.  There is none if the entry of a table
is not mapped. -/
def target? (machine : Machine H) : Instruction → Option UInt32
  | .reg (.jump _) r0 => some (machine.registers.value r0)
  | .imm (.jump _) v0 => some v0
  | .jumpTable _ v0 r0 v1 => machine.wordAt? (v0 + machine.registers.value r0 * v1)
  | _ => none

/-- The machine with the flags of a comparison. -/
def compared (machine : Machine H) (a b : UInt32) : Machine H :=
  { machine with registers := machine.registers.setFlags (compareFlags a b) }

theorem flags_compared (machine : Machine H) (a b : UInt32) :
    (machine.compared a b).registers.flags = compareFlags a b :=
  RegisterFile.flags_setFlags

/-- A target that is not read from the flags is the same behind a comparison. -/
theorem target?_compared (h : ∀ reg ∈ instruction.registers, reg.slot ≠ Reg.eflags.slot)
    (a b : UInt32) : (machine.compared a b).target? instruction = machine.target? instruction := by
  have hvalue : ∀ reg ∈ instruction.registers,
      (machine.compared a b).registers.value reg = machine.registers.value reg := by
    intro reg hreg
    exact RegisterFile.value_setFlags (Ne.symm (h reg hreg))
  cases instruction with
  | reg op r0 =>
    cases op with
    | jump condition => exact congrArg some (hvalue r0 (List.mem_singleton_self r0))
    | _ => rfl
  | imm op v0 => cases op <;> rfl
  | jumpTable condition v0 r0 v1 =>
    show machine.wordAt? (v0 + (machine.compared a b).registers.value r0 * v1) = _
    rw [hvalue r0 (List.mem_singleton_self r0)]
    rfl
  | _ => rfl

/-! ## Single instructions -/

/-- A comparison sets the flags and goes on behind itself. -/
theorem step_comparison {a b : UInt32} (h : procedure.instruction? pc = some instruction)
    (hwords : machine.comparands? instruction = some (a, b)) :
    step invoke procedure pc machine = .ok (some (pc + 1)) (machine.compared a b) := by
  rw [step_eq_execute h]
  cases instruction with
  | regReg op r0 r1 =>
    cases op <;> cases hwords
    rfl
  | regImm op r0 v0 =>
    cases op <;> cases hwords
    rfl
  | regMem op r0 operand =>
    cases op <;> try cases hwords
    obtain ⟨word, hword, hpair⟩ := Option.map_eq_some_iff.1 hwords
    cases hpair
    exact execute_regMem (executeLoad_eq_ok hword .cmp r0)
  | memReg op operand r1 =>
    cases op <;> try cases hwords
    obtain ⟨word, hword, hpair⟩ := Option.map_eq_some_iff.1 hwords
    cases hpair
    exact execute_memReg (executeStore_cmp_eq_ok hword _)
  | memImm op operand v1 =>
    cases op <;> try cases hwords
    obtain ⟨word, hword, hpair⟩ := Option.map_eq_some_iff.1 hwords
    cases hpair
    exact execute_memImm (executeStore_cmp_eq_ok hword _)
  | _ => cases hwords

section Jump

variable {condition : Condition} (h : procedure.instruction? pc = some instruction)
  (hcondition : instruction.condition? = some condition)
include h hcondition

/-- A jump that is taken goes to its target, in every shape. -/
theorem step_jump_taken (hholds : condition.holds machine.registers.flags = true)
    {target : UInt32} (htarget : machine.target? instruction = some target) :
    step invoke procedure pc machine = jump procedure target machine := by
  rw [step_eq_execute h]
  cases instruction with
  | reg op r0 =>
    cases op <;> cases hcondition
    cases htarget
    show branch procedure pc condition (machine.registers.value r0) machine = _
    simp only [branch, bind, EStateM.bind, get_eq_ok, if_pos hholds]
  | imm op v0 =>
    cases op <;> cases hcondition
    cases htarget
    show branch procedure pc condition target machine = _
    simp only [branch, bind, EStateM.bind, get_eq_ok, if_pos hholds]
  | jumpTable condition' v0 r0 v1 =>
    cases hcondition
    have hload : loadWord (v0 + machine.registers.value r0 * v1) machine = .ok target machine :=
      loadWord_eq_ok htarget
    simp only [execute, bind, EStateM.bind, get_eq_ok, if_pos hholds, hload]
  | _ => cases hcondition

/-- A jump that is not taken looks neither at its target nor at the table that has it. -/
theorem step_jump_passed (hholds : condition.holds machine.registers.flags = false) :
    step invoke procedure pc machine = .ok (some (pc + 1)) machine := by
  have hnot : ¬condition.holds machine.registers.flags = true := by
    rw [hholds]
    exact Bool.false_ne_true
  rw [step_eq_execute h]
  cases instruction with
  | reg op r0 =>
    cases op <;> cases hcondition
    show branch procedure pc condition (machine.registers.value r0) machine = _
    simp only [branch, bind, EStateM.bind, get_eq_ok, if_neg hnot]
    rfl
  | imm op v0 =>
    cases op <;> cases hcondition
    show branch procedure pc condition v0 machine = _
    simp only [branch, bind, EStateM.bind, get_eq_ok, if_neg hnot]
    rfl
  | jumpTable condition' v0 r0 v1 =>
    cases hcondition
    simp only [execute, bind, EStateM.bind, get_eq_ok, if_neg hnot]
    rfl
  | _ => cases hcondition

end Jump

/-! ## Where a jump ends -/

theorem jump_eq_ok {index : Nat} {target : UInt32} (hindex : index < procedure.length)
    (htarget : target.toNat = codeBase.toNat + index) :
    jump procedure target machine = .ok (some index) machine := by
  have hfound : procedure.indexOf? target = some index :=
    codeIndex?_eq_some_iff.2 ⟨htarget, hindex⟩
  simp only [jump, hfound]
  rfl

theorem jump_eq_error {target : UInt32}
    (h : ∀ index < procedure.length, target.toNat ≠ codeBase.toNat + index) :
    jump procedure target machine = .error (.badJumpTarget target) machine := by
  have hnone : procedure.indexOf? target = none := by
    refine Option.eq_none_iff_forall_ne_some.2 fun index hfound => ?_
    obtain ⟨htarget, hindex⟩ := codeIndex?_eq_some_iff.1 hfound
    exact h index hindex htarget
  simp only [jump, hnone]
  rfl

/-! ## Both together -/

/-- A comparison of `a` with `b` and a jump, each in any shape.  The comparison changes the
flags and nothing else, and what they were before does not matter.  The jump is taken exactly if
`a` and `b` are related as its condition asks.  Then it goes to the instruction at its target,
or faults if no instruction of the procedure is there.  Otherwise it goes on behind itself,
whatever its target is and whether there is one.  The jump never changes the machine, and the
comparison does not change the target, if this is not read from the flags. -/
theorem step_comparison_jump {pc pc' : Nat} {comparison jump : Instruction}
    {condition : Condition} {machine : Machine H} {a b : UInt32}
    (hcomparison : procedure.instruction? pc = some comparison)
    (hwords : machine.comparands? comparison = some (a, b))
    (hjump : procedure.instruction? pc' = some jump)
    (hcondition : jump.condition? = some condition) (invoke : H.Function → Eval H Unit) :
    ∃ machine', step invoke procedure pc machine = .ok (some (pc + 1)) machine' ∧
      machine' = { machine with
        registers := machine.registers.setFlags (compareFlags a b) } ∧
      ((∀ reg ∈ jump.registers, reg.slot ≠ Reg.eflags.slot) →
        machine'.target? jump = machine.target? jump) ∧
      (condition.Relates a b → ∀ target, machine'.target? jump = some target →
        (∀ index < procedure.length, target.toNat = codeBase.toNat + index →
          step invoke procedure pc' machine' = .ok (some index) machine') ∧
        ((∀ index < procedure.length, target.toNat ≠ codeBase.toNat + index) →
          step invoke procedure pc' machine' = .error (.badJumpTarget target) machine')) ∧
      (¬condition.Relates a b →
        step invoke procedure pc' machine' = .ok (some (pc' + 1)) machine') := by
  have hholds : condition.holds (machine.compared a b).registers.flags =
      decide (condition.Relates a b) := by
    rw [flags_compared, holds_compareFlags]
  refine ⟨machine.compared a b, step_comparison hcomparison hwords, rfl,
    fun hspares => target?_compared hspares a b, ?_, ?_⟩
  · intro hrelates target htarget
    rw [decide_eq_true hrelates] at hholds
    rw [step_jump_taken hjump hcondition hholds htarget]
    exact ⟨fun index hindex hat => jump_eq_ok hindex hat, jump_eq_error⟩
  · intro hrelates
    rw [decide_eq_false hrelates] at hholds
    exact step_jump_passed hjump hcondition hholds

/-- A procedure that compares the word at the stack top with `3` and jumps behind itself if the
word is above, and through a table at address zero if it is not. -/
def comparingProcedure : Procedure :=
  ⟨"f", .empty, .empty, #[.memImm .cmp ⟨.esp, 0⟩ 3, .jumpTable .belowOrEqual 0 .eax 4,
    .imm (.jump .above) (codeAddress 3), .retn]⟩

theorem step_comparison_jump_comparingProcedure :
    ∃ machine', step (fun _ => pure ()) comparingProcedure 0 operandMachine =
        .ok (some 1) machine' ∧
      machine'.target? (.jumpTable .belowOrEqual 0 .eax 4) = none ∧
      step (fun _ => pure ()) comparingProcedure 1 machine' = .ok (some 2) machine' ∧
      step (fun _ => pure ()) comparingProcedure 2 machine' = .ok (some 3) machine' := by
  have hwords : operandMachine.comparands? (.memImm .cmp ⟨.esp, 0⟩ 3) = some (7, 3) := by
    decide +kernel
  have hcomparison : comparingProcedure.instruction? 0 = some (.memImm .cmp ⟨.esp, 0⟩ 3) := rfl
  have htable : comparingProcedure.instruction? 1 =
      some (.jumpTable .belowOrEqual 0 .eax 4) := rfl
  have habove : comparingProcedure.instruction? 2 =
      some (.imm (.jump .above) (codeAddress 3)) := rfl
  obtain ⟨machine', hstep, rfl, hunmapped, -, hpassed⟩ :=
    step_comparison_jump hcomparison hwords htable rfl fun _ => pure ()
  obtain ⟨_, -, rfl, -, htaken, -⟩ :=
    step_comparison_jump hcomparison hwords habove rfl fun _ => pure ()
  have hindex : (3 : Nat) < comparingProcedure.length := by decide
  refine ⟨_, hstep, (hunmapped (by decide)).trans (by decide +kernel), hpassed (by decide), ?_⟩
  exact (htaken (by decide) (codeAddress 3) rfl).1 3 hindex (by decide)

end Machine

end X86Listing
