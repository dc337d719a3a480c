import X86Listing.Instruction.Mnemonic
import X86Listing.Text.Numeral

/-!
# The text of instructions

`Instruction.listing` writes an instruction with all its operands resolved.
Values are hexadecimal, except for the entry size of a jump table, which is
decimal.  A displacement is written as a signed number and left out when it is
zero.
-/

namespace X86Listing

open Text (hex)

/-- The text of a memory operand. -/
def MemoryOperand.listing (mem : MemoryOperand) : String :=
  let base := mem.base.name
  if mem.disp = 0 then s!"[{base}]"
  else if 0x80000000 ≤ mem.disp then s!"[{base} - " ++ hex (-mem.disp).toNat ++ "]"
  else s!"[{base} + " ++ hex mem.disp.toNat ++ "]"

/-- The sign between the last two parts of an address. -/
def IndexOp.sign : IndexOp → String
  | add => "+"
  | mul => "*"

/-- The text of an instruction. -/
def Instruction.listing : Instruction → String
  | retn => "retn"
  | call target => "call " ++ target
  | reg op r0 => op.mnemonic ++ " " ++ r0.name
  | imm op v0 => op.mnemonic ++ " " ++ hex v0.toNat
  | regReg op r0 r1 => op.mnemonic ++ " " ++ r0.name ++ ", " ++ r1.name
  | shrd r0 r1 r2 => "shrd " ++ r0.name ++ ", " ++ r1.name ++ ", " ++ r2.name
  | regImm op r0 v0 => op.mnemonic ++ " " ++ r0.name ++ ", " ++ hex v0.toNat
  | regMem op r0 operand => op.mnemonic ++ " " ++ r0.name ++ ", " ++ operand.listing
  | lea r0 r1 r2 index v0 =>
    "lea " ++ r0.name ++ ", [" ++ r1.name ++ " + " ++ r2.name ++ " " ++ index.sign ++ " " ++
      hex v0.toNat ++ "]"
  | jumpTable condition v0 r0 v1 =>
    condition.mnemonic ++ " " ++ hex v0.toNat ++ "[" ++ r0.name ++ " * " ++ toString v1.toNat ++
      "]"
  | mem op operand => op.mnemonic ++ " " ++ operand.listing
  | memReg op operand r1 => op.mnemonic ++ " " ++ operand.listing ++ ", " ++ r1.name
  | memImm op operand v1 => op.mnemonic ++ " " ++ operand.listing ++ ", " ++ hex v1.toNat

end X86Listing
