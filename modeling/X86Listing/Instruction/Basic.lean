import X86Listing.Register.File

/-!
# Instructions

An instruction is a mnemonic with its operands.  There is one constructor for
each shape of operand list, and it carries an operation of that shape, so every
value is an instruction of the dialect.  `Instruction.shape` names the shape.

* `Condition` is the condition of a jump, and `Condition.Holds` says when it is
  met.
* `RegOp`, `ImmOp`, `PairOp`, `LoadOp`, `WideOp` and `StoreOp` are the operations
  of the shapes that have several.
* `MemoryOperand` is a register plus a displacement.
-/

namespace X86Listing

/-! ## Conditions -/

/-- The condition of a jump.  The flags are those of an unsigned comparison. -/
inductive Condition where
  /-- No condition, as in `jmp`. -/
  | always
  /-- The operands were equal, as in `jz`. -/
  | zero
  /-- The operands differed, as in `jnz`. -/
  | notZero
  /-- The left operand was not below the right, as in `jnb`. -/
  | notBelow
  /-- The left operand was not above the right, as in `jbe`. -/
  | belowOrEqual
  /-- The left operand was above the right, as in `ja`. -/
  | above
deriving DecidableEq, Repr, Inhabited

namespace Condition

/-- Every condition. -/
def all : List Condition :=
  [always, zero, notZero, notBelow, belowOrEqual, above]

/-- The mnemonic of the jump on a condition. -/
def mnemonic : Condition → String
  | always => "jmp"
  | zero => "jz"
  | notZero => "jnz"
  | notBelow => "jnb"
  | belowOrEqual => "jbe"
  | above => "ja"

/-- Do the flags meet the condition? -/
def holds (condition : Condition) (flags : UInt32) : Bool :=
  let isZero := flags &&& Flag.zero != 0
  let isBelow := flags &&& Flag.carry != 0
  match condition with
  | always => true
  | zero => isZero
  | notZero => !isZero
  | notBelow => !isBelow
  | belowOrEqual => isZero || isBelow
  | above => !(isZero || isBelow)

end Condition

/-! ## Operations -/

/-- The operations on one register. -/
inductive RegOp where
  | push
  | pop
  | not
  | inc
  | dec
  | jump (condition : Condition)
deriving DecidableEq, Repr

/-- The operations on one value. -/
inductive ImmOp where
  | push
  | jump (condition : Condition)
deriving DecidableEq, Repr

/-- The operations on a register and a second register or a value. -/
inductive PairOp where
  | add
  | and
  | cmp
  | mov
  | movzx
  | or
  | sar
  | shl
  | shr
  | sub
  | xor
deriving DecidableEq, Repr

/-- The operations on a register and a word of memory. -/
inductive LoadOp where
  | add
  | and
  | cmp
  | imul
  | mov
  | or
  | sub
  | xor
deriving DecidableEq, Repr

/-- The operations on the 64-bit pair `edx:eax` and a word of memory. -/
inductive WideOp where
  | div
  | mul
deriving DecidableEq, Repr

/-- The operations on a word of memory and a register or a value. -/
inductive StoreOp where
  | cmp
  | mov
deriving DecidableEq, Repr

/-- How an address is made of its last two parts. -/
inductive IndexOp where
  /-- The index register plus the value. -/
  | add
  /-- The index register times the value. -/
  | mul
deriving DecidableEq, Repr

/-- A memory operand: the word at a register plus a displacement modulo
`2 ^ 32`. -/
structure MemoryOperand where
  base : Reg
  disp : UInt32
deriving DecidableEq, Repr

/-! ## Shapes -/

/-- The shape of an operand list. -/
inductive Shape where
  | none
  | call
  | reg
  | imm
  | regReg
  | regRegReg
  | regImm
  | regMem
  | lea
  | jumpTable
  | mem
  | memReg
  | memImm
deriving DecidableEq, Repr

namespace Shape

/-- Every shape. -/
def all : List Shape :=
  [none, call, reg, imm, regReg, regRegReg, regImm, regMem, lea, jumpTable, mem, memReg, memImm]

/-- The name of a shape. -/
def name : Shape → String
  | none => "none"
  | call => "call"
  | reg => "reg"
  | imm => "imm"
  | regReg => "reg_reg"
  | regRegReg => "reg_reg_reg"
  | regImm => "reg_imm"
  | regMem => "reg_mem"
  | lea => "lea"
  | jumpTable => "jump_table"
  | mem => "mem"
  | memReg => "mem_reg"
  | memImm => "mem_imm"

/-- The operand list of a shape as it shows in messages. -/
def operands : Shape → String
  | none => "no operands"
  | call => "call target"
  | reg => "r0"
  | imm => "v0"
  | regReg => "r0, r1"
  | regRegReg => "r0, r1, r2"
  | regImm => "r0, v0"
  | regMem => "r0, [r1 + v0]"
  | lea => "r0, [r1 + r2 op v0]"
  | jumpTable => "v0[r0 * v1]"
  | mem => "[r0 + v0]"
  | memReg => "[r0 + v0], r1"
  | memImm => "[r0 + v0], v1"

end Shape

/-! ## Instructions -/

/-- An instruction with its operands. -/
inductive Instruction where
  /-- Return to the address at the stack top. -/
  | retn
  /-- Call the host function of a name. -/
  | call (target : String)
  /-- An operation on one register. -/
  | reg (op : RegOp) (r0 : Reg)
  /-- An operation on one value. -/
  | imm (op : ImmOp) (v0 : UInt32)
  /-- An operation on two registers. -/
  | regReg (op : PairOp) (r0 r1 : Reg)
  /-- Shift a register right and fill it from another, by the count in a third. -/
  | shrd (r0 r1 r2 : Reg)
  /-- An operation on a register and a value. -/
  | regImm (op : PairOp) (r0 : Reg) (v0 : UInt32)
  /-- An operation on a register and a word of memory. -/
  | regMem (op : LoadOp) (r0 : Reg) (mem : MemoryOperand)
  /-- Load an address made of two registers and a value. -/
  | lea (r0 r1 r2 : Reg) (index : IndexOp) (v0 : UInt32)
  /-- Jump to the code address in entry `r0` of the table at `v0` with entries of
  `v1` bytes. -/
  | jumpTable (condition : Condition) (v0 : UInt32) (r0 : Reg) (v1 : UInt32)
  /-- An operation on `edx:eax` and a word of memory. -/
  | mem (op : WideOp) (mem : MemoryOperand)
  /-- An operation on a word of memory and a register. -/
  | memReg (op : StoreOp) (mem : MemoryOperand) (r1 : Reg)
  /-- An operation on a word of memory and a value. -/
  | memImm (op : StoreOp) (mem : MemoryOperand) (v1 : UInt32)
deriving DecidableEq, Repr

/-- The shape of an instruction's operand list. -/
def Instruction.shape : Instruction → Shape
  | retn => .none
  | call _ => .call
  | reg .. => .reg
  | imm .. => .imm
  | regReg .. => .regReg
  | shrd .. => .regRegReg
  | regImm .. => .regImm
  | regMem .. => .regMem
  | lea .. => .lea
  | jumpTable .. => .jumpTable
  | mem .. => .mem
  | memReg .. => .memReg
  | memImm .. => .memImm

end X86Listing
