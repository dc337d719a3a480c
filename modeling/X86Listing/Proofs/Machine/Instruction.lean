import X86Listing.Machine.Step
import X86Listing.Proofs.Machine.Stack

/-!
# Single instructions

One equation for each kind of instruction that a proof walks through: the answer of
`step` and the machine after it.  Proofs about a given piece of code cite these and
do not open `step`.
-/

namespace X86Listing.Machine

variable {H : Host} {invoke : H.Function → Eval H Unit} {procedure : Procedure} {pc : Nat}
  {machine : Machine H}

theorem step_eq_execute {instruction : Instruction}
    (h : procedure.instruction? pc = some instruction) :
    step invoke procedure pc = execute invoke procedure pc instruction := by
  rw [step, h]

/-! ## Registers -/

theorem step_regReg {op : PairOp} {r0 r1 : Reg}
    (h : procedure.instruction? pc = some (.regReg op r0 r1)) :
    step invoke procedure pc machine = .ok (some (pc + 1)) { machine with
      registers := machine.registers.apply r0
        (op.eval (machine.registers.value r0) (machine.registers.value r1)) } := by
  rw [step, h]
  rfl

theorem step_regImm {op : PairOp} {r0 : Reg} {v0 : UInt32}
    (h : procedure.instruction? pc = some (.regImm op r0 v0)) :
    step invoke procedure pc machine = .ok (some (pc + 1)) { machine with
      registers := machine.registers.apply r0 (op.eval (machine.registers.value r0) v0) } := by
  rw [step, h]
  rfl

theorem step_shrd {r0 r1 r2 : Reg} (h : procedure.instruction? pc = some (.shrd r0 r1 r2)) :
    step invoke procedure pc machine = .ok (some (pc + 1)) { machine with
      registers := machine.registers.set r0 (doubleShift (machine.registers.value r0)
        (machine.registers.value r1) (machine.registers.value r2)) } := by
  rw [step, h]
  rfl

/-! ## Memory -/

theorem loadWord_eq_ok {address word : UInt32} (h : machine.wordAt? address = some word) :
    loadWord address machine = .ok word machine := by
  simp only [loadWord, bind, EStateM.bind, get_eq_ok, h]
  rfl

theorem step_push {reg : Reg} (h : procedure.instruction? pc = some (.reg .push reg))
    (hlow : machine.stack.base.toNat + 4 ≤ machine.registers.esp.toNat)
    (hhigh : machine.registers.esp.toNat ≤
      machine.stack.base.toNat + machine.stack.region.size) :
    step invoke procedure pc machine =
      .ok (some (pc + 1)) (machine.pushed (machine.registers.value reg)) := by
  rw [step, h]
  show EStateM.bind (push (machine.registers.value reg)) _ machine = _
  simp only [EStateM.bind, push_eq_ok hlow hhigh]
  rfl

theorem step_pushImm {word : UInt32} (h : procedure.instruction? pc = some (.imm .push word))
    (hlow : machine.stack.base.toNat + 4 ≤ machine.registers.esp.toNat)
    (hhigh : machine.registers.esp.toNat ≤
      machine.stack.base.toNat + machine.stack.region.size) :
    step invoke procedure pc machine = .ok (some (pc + 1)) (machine.pushed word) := by
  rw [step, h]
  show EStateM.bind (push word) _ machine = _
  simp only [EStateM.bind, push_eq_ok hlow hhigh]
  rfl

theorem step_pop {reg : Reg} {word : UInt32}
    (h : procedure.instruction? pc = some (.reg .pop reg))
    (hload : machine.stack.region.loadWord? machine.registers.esp = some word) :
    step invoke procedure pc machine = .ok (some (pc + 1)) { machine.popped with
      registers := machine.popped.registers.set reg word } := by
  rw [step, h]
  show EStateM.bind pop _ machine = _
  simp only [EStateM.bind, pop_eq_ok hload]
  rfl

theorem step_regMem {op : LoadOp} {r0 base : Reg} {disp word : UInt32}
    (h : procedure.instruction? pc = some (.regMem op r0 ⟨base, disp⟩))
    (hload : machine.wordAt? (machine.registers.value base + disp) = some word) :
    step invoke procedure pc machine = .ok (some (pc + 1)) { machine with
      registers := machine.registers.apply r0
        (op.eval (machine.registers.value r0) word) } := by
  rw [step, h]
  show EStateM.bind (EStateM.bind (loadWord (machine.registers.value base + disp)) _) _
    machine = _
  simp only [EStateM.bind, loadWord_eq_ok hload]
  rfl

/-! ## Jumps and returns -/

/-- A jump to a code address goes to the instruction there, if there is one. -/
theorem jump_codeAddress {index : Nat} (h : index < 2 ^ 32 - codeBase.toNat) :
    jump procedure (codeAddress index) machine =
      if index < procedure.length then .ok (some index) machine
      else .error (.badJumpTarget (codeAddress index)) machine := by
  by_cases hlt : index < procedure.length
  · have hindex : procedure.indexOf? (codeAddress index) = some index :=
      codeIndex?_eq_some_iff.2 ⟨toNat_codeAddress h, hlt⟩
    simp only [jump, hindex, if_pos hlt]
    rfl
  · have hindex : procedure.indexOf? (codeAddress index) = none := by
      refine Option.eq_none_iff_forall_ne_some.2 fun found hfound => hlt ?_
      obtain ⟨haddress, hfit⟩ := codeIndex?_eq_some_iff.1 hfound
      have hsame := toNat_codeAddress h
      omega
    simp only [jump, hindex, if_neg hlt]
    rfl

/-- A conditional jump to an instruction of the procedure. -/
theorem step_immJump {condition : Condition} {index : Nat}
    (h : procedure.instruction? pc = some (.imm (.jump condition) (codeAddress index)))
    (hindex : index < procedure.length) (hlength : procedure.length ≤ 2 ^ 32 - codeBase.toNat) :
    step invoke procedure pc machine =
      .ok (some (if condition.holds machine.registers.flags then index else pc + 1)) machine := by
  have hjump : jump procedure (codeAddress index) machine = .ok (some index) machine := by
    rw [jump_codeAddress (Nat.lt_of_lt_of_le hindex hlength), if_pos hindex]
  rw [step, h]
  show branch procedure pc condition (codeAddress index) machine = _
  simp only [branch, bind, EStateM.bind, get_eq_ok]
  split
  · exact hjump
  · rfl

/-- What a jump on a condition does at `pc` if `index` instructions stand before its target.
Behind the last instruction there is nothing to jump to. -/
def jumpResult (procedure : Procedure) (condition : Condition) (pc index : Nat)
    (machine : Machine H) : EStateM.Result Fault (Machine H) (Option Nat) :=
  if condition.holds machine.registers.flags then
    if index < procedure.length then .ok (some index) machine
    else .error (.badJumpTarget (codeAddress procedure.length)) machine
  else .ok (some (pc + 1)) machine

section Branch

variable {condition : Condition} {index : Nat} (hindex : index ≤ procedure.length)
  (hlength : procedure.length < 2 ^ 32 - codeBase.toNat)
include hindex hlength

theorem branch_codeAddress :
    branch procedure pc condition (codeAddress index) machine =
      jumpResult procedure condition pc index machine := by
  simp only [branch, jumpResult, bind, EStateM.bind, get_eq_ok]
  by_cases hholds : condition.holds machine.registers.flags = true
  · rw [if_pos hholds, if_pos hholds, jump_codeAddress (Nat.lt_of_le_of_lt hindex hlength)]
    by_cases hlt : index < procedure.length
    · rw [if_pos hlt, if_pos hlt]
    · have hend : index = procedure.length := by omega
      rw [if_neg hlt, if_neg hlt, hend]
  · rw [if_neg hholds, if_neg hholds]
    rfl

/-- A jump to the address of a label. -/
theorem step_immJump_label
    (h : procedure.instruction? pc = some (.imm (.jump condition) (codeAddress index))) :
    step invoke procedure pc machine = jumpResult procedure condition pc index machine := by
  rw [step, h]
  exact branch_codeAddress hindex hlength

/-- A jump to the address of a label in a register. -/
theorem step_regJump_label {reg : Reg}
    (h : procedure.instruction? pc = some (.reg (.jump condition) reg))
    (hvalue : machine.registers.value reg = codeAddress index) :
    step invoke procedure pc machine = jumpResult procedure condition pc index machine := by
  rw [step, h]
  show branch procedure pc condition (machine.registers.value reg) machine = _
  rw [hvalue]
  exact branch_codeAddress hindex hlength

end Branch

/-- A return that finds the sentinel at the stack top. -/
theorem step_retn (h : procedure.instruction? pc = some .retn)
    (hload : machine.stack.region.loadWord? machine.registers.esp = some returnSentinel) :
    step invoke procedure pc machine = .ok none machine.popped := by
  rw [step, h]
  simp only [execute, bind, EStateM.bind, pop_eq_ok hload]
  rfl

/-- A return that finds another word than the sentinel. -/
theorem step_retn_corrupt {word : UInt32} (h : procedure.instruction? pc = some .retn)
    (hload : machine.stack.region.loadWord? machine.registers.esp = some word)
    (hword : word ≠ returnSentinel) :
    step invoke procedure pc machine = .error (.corruptReturn word) machine.popped := by
  rw [step, h]
  simp only [execute, bind, EStateM.bind, pop_eq_ok hload, if_neg hword]
  rfl

end X86Listing.Machine
