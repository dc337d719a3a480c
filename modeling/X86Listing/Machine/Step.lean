import X86Listing.Machine.Arithmetic
import X86Listing.Machine.Basic

/-!
# Executing one instruction

`step` executes the instruction at an index of a procedure and answers the index
of the next one: the index behind it, the target of a jump that is taken, or none
when the procedure has returned.

What a host function does is given by `invoke`.  The instruction `call` is the only
one that needs it.

The operands are read before anything is written, so a fault leaves the machine
as it was before the instruction.  Two cases are apart: a return to an address
other than the sentinel has popped that address, and a host function may have
changed the machine before it failed.
-/

namespace X86Listing.Machine

variable {H : Host}

/-- The address of a memory operand. -/
def address (mem : MemoryOperand) : Eval H UInt32 :=
  return (← get).registers.value mem.base + mem.disp

/-- The index of the instruction at a code address. -/
def jump (procedure : Procedure) (target : UInt32) : Eval H (Option Nat) :=
  match procedure.indexOf? target with
  | some index => return some index
  | none => throw (.badJumpTarget target)

/-- Jumps to a code address if the flags meet a condition, and goes on behind
`pc` otherwise. -/
def branch (procedure : Procedure) (pc : Nat) (condition : Condition) (target : UInt32) :
    Eval H (Option Nat) := do
  if condition.holds (← get).registers.flags then jump procedure target
  else return some (pc + 1)

/-- Executes an operation on one register. -/
def executeReg (procedure : Procedure) (pc : Nat) (op : RegOp) (r0 : Reg) :
    Eval H (Option Nat) := do
  let value ← readRegister r0
  match op with
  | .push => push value
  | .pop => writeRegister r0 (← pop)
  | .not => writeRegister r0 (~~~value)
  | .inc => writeRegister r0 (value + 1)
  | .dec => writeRegister r0 (value - 1)
  | .jump condition => return ← branch procedure pc condition value
  return some (pc + 1)

/-- Executes an operation on one value. -/
def executeImm (procedure : Procedure) (pc : Nat) (op : ImmOp) (v0 : UInt32) :
    Eval H (Option Nat) :=
  match op with
  | .push => do
    push v0
    return some (pc + 1)
  | .jump condition => branch procedure pc condition v0

/-- Executes an operation on a register and a word. -/
def executePair (op : PairOp) (r0 : Reg) (word : UInt32) : Eval H Unit :=
  modifyRegisters fun file => file.apply r0 (op.eval (file.value r0) word)

/-- Executes an operation on a register and a word of memory. -/
def executeLoad (op : LoadOp) (r0 : Reg) (mem : MemoryOperand) : Eval H Unit := do
  let word ← loadWord (← address mem)
  modifyRegisters fun file => file.apply r0 (op.eval (file.value r0) word)

/-- Executes an operation on `edx:eax` and a word of memory. -/
def executeWide (op : WideOp) (mem : MemoryOperand) : Eval H Unit := do
  let word ← loadWord (← address mem)
  let file := (← get).registers
  match op with
  | .mul =>
    let (low, high) := multiply (file.value .eax) word
    modifyRegisters fun file => (file.set .eax low).set .edx high
  | .div =>
    match divide? (file.value .edx) (file.value .eax) word with
    | none => throw .divideByZero
    | some (quotient, remainder) =>
      modifyRegisters fun file => (file.set .eax quotient).set .edx remainder

/-- Executes an operation on a word of memory and another word. -/
def executeStore (op : StoreOp) (mem : MemoryOperand) (word : UInt32) : Eval H Unit := do
  let address ← address mem
  match op with
  | .mov => storeWord address word
  | .cmp =>
    let old ← loadWord address
    modifyRegisters fun file => file.setFlags (compareFlags old word)

/-- Executes an instruction that is neither a jump nor a return, nor a call. -/
def executePlain (instruction : Instruction) : Eval H Unit := do
  match instruction with
  | .regReg op r0 r1 => executePair op r0 (← readRegister r1)
  | .regImm op r0 v0 => executePair op r0 v0
  | .shrd r0 r1 r2 =>
    modifyRegisters fun file =>
      file.set r0 (doubleShift (file.value r0) (file.value r1) (file.value r2))
  | .regMem op r0 operand => executeLoad op r0 operand
  | .lea r0 r1 r2 index v0 =>
    modifyRegisters fun file =>
      file.set r0 (index.address (file.value r1) (file.value r2) v0)
  | .mem op operand => executeWide op operand
  | .memReg op operand r1 => executeStore op operand (← readRegister r1)
  | .memImm op operand v1 => executeStore op operand v1
  | _ => return ()

/-- Executes an instruction at an index of a procedure. -/
def execute (invoke : H.Function → Eval H Unit) (procedure : Procedure) (pc : Nat)
    (instruction : Instruction) : Eval H (Option Nat) := do
  match instruction with
  | .retn =>
    let address ← pop
    if address = returnSentinel then return none
    else throw (.corruptReturn address)
  | .call target =>
    match (← get).functions.get? target with
    | none => throw (.unresolvedCall target)
    | some function =>
      invoke function
      return some (pc + 1)
  | .reg op r0 => executeReg procedure pc op r0
  | .imm op v0 => executeImm procedure pc op v0
  | .jumpTable condition v0 r0 v1 =>
    let file := (← get).registers
    if condition.holds file.flags then
      jump procedure (← loadWord (v0 + file.value r0 * v1))
    else
      return some (pc + 1)
  | _ =>
    executePlain instruction
    return some (pc + 1)

/-- Executes the instruction at an index of a procedure and answers the index of
the next one. -/
def step (invoke : H.Function → Eval H Unit) (procedure : Procedure) (pc : Nat) :
    Eval H (Option Nat) :=
  match procedure.instruction? pc with
  | none => throw (.badJumpTarget (codeAddress pc))
  | some instruction => execute invoke procedure pc instruction

end X86Listing.Machine
