import X86Listing.Instruction.Basic
import X86Listing.Text.NameTable

/-!
# Mnemonics

Every operation has a mnemonic, and every shape of operand list has a table of
the mnemonics that it takes.  One mnemonic can stand in several tables: `mov` is
in five of them.  A mnemonic that is not in the table of its shape is no
instruction.

The tables are in the order of their names, so that they can be searched by
halving.  `PairOp.valueTable` differs from `PairOp.registerTable` in one entry:
`movzx` needs a register to widen.
-/

namespace X86Listing

/-- A table from mnemonics to operations. -/
abbrev Mnemonics (α : Type) := Array (String × α)

/-- The operation of a mnemonic in a table. -/
def Mnemonics.find? {α : Type} (table : Mnemonics α) (mnemonic : List Char) : Option α :=
  Text.findIgnoreCase? table mnemonic

/-! ## Mnemonics of the operations -/

/-- The mnemonic of an operation on one register. -/
def RegOp.mnemonic : RegOp → String
  | push => "push"
  | pop => "pop"
  | not => "not"
  | inc => "inc"
  | dec => "dec"
  | jump condition => condition.mnemonic

/-- The mnemonic of an operation on one value. -/
def ImmOp.mnemonic : ImmOp → String
  | push => "push"
  | jump condition => condition.mnemonic

/-- The mnemonic of an operation on a register and a register or value. -/
def PairOp.mnemonic : PairOp → String
  | add => "add"
  | and => "and"
  | cmp => "cmp"
  | mov => "mov"
  | movzx => "movzx"
  | or => "or"
  | sar => "sar"
  | shl => "shl"
  | shr => "shr"
  | sub => "sub"
  | xor => "xor"

/-- The mnemonic of an operation on a register and a word of memory. -/
def LoadOp.mnemonic : LoadOp → String
  | add => "add"
  | and => "and"
  | cmp => "cmp"
  | imul => "imul"
  | mov => "mov"
  | or => "or"
  | sub => "sub"
  | xor => "xor"

/-- The mnemonic of an operation on `edx:eax`. -/
def WideOp.mnemonic : WideOp → String
  | div => "div"
  | mul => "mul"

/-- The mnemonic of an operation on a word of memory. -/
def StoreOp.mnemonic : StoreOp → String
  | cmp => "cmp"
  | mov => "mov"

/-! ## Tables -/

/-- The instructions without operands. -/
def retnTable : Mnemonics Unit :=
  #[("retn", ())]

/-- The instructions that name a host function. -/
def callTable : Mnemonics Unit :=
  #[("call", ())]

/-- The instructions with one register. -/
def RegOp.table : Mnemonics RegOp :=
  #[("dec", dec), ("inc", inc), ("ja", jump .above), ("jbe", jump .belowOrEqual),
    ("jmp", jump .always), ("jnb", jump .notBelow), ("jnz", jump .notZero), ("jz", jump .zero),
    ("not", not), ("pop", pop), ("push", push)]

/-- The instructions with one value. -/
def ImmOp.table : Mnemonics ImmOp :=
  #[("ja", jump .above), ("jbe", jump .belowOrEqual), ("jmp", jump .always),
    ("jnb", jump .notBelow), ("jnz", jump .notZero), ("jz", jump .zero), ("push", push)]

/-- The instructions with two registers. -/
def PairOp.registerTable : Mnemonics PairOp :=
  #[("add", add), ("and", and), ("cmp", cmp), ("mov", mov), ("movzx", movzx), ("or", or),
    ("sar", sar), ("shl", shl), ("shr", shr), ("sub", sub), ("xor", xor)]

/-- The instructions with a register and a value. -/
def PairOp.valueTable : Mnemonics PairOp :=
  #[("add", add), ("and", and), ("cmp", cmp), ("mov", mov), ("or", or), ("sar", sar),
    ("shl", shl), ("shr", shr), ("sub", sub), ("xor", xor)]

/-- The instructions with three registers. -/
def shrdTable : Mnemonics Unit :=
  #[("shrd", ())]

/-- The instructions with a register and a word of memory. -/
def LoadOp.table : Mnemonics LoadOp :=
  #[("add", add), ("and", and), ("cmp", cmp), ("imul", imul), ("mov", mov), ("or", or),
    ("sub", sub), ("xor", xor)]

/-- The instructions with a register and an address of three parts. -/
def leaTable : Mnemonics Unit :=
  #[("lea", ())]

/-- The instructions with an entry of a table of code addresses. -/
def Condition.table : Mnemonics Condition :=
  #[("ja", above), ("jbe", belowOrEqual), ("jmp", always), ("jnb", notBelow), ("jnz", notZero),
    ("jz", zero)]

/-- The instructions with one word of memory. -/
def WideOp.table : Mnemonics WideOp :=
  #[("div", div), ("mul", mul)]

/-- The instructions with a word of memory and a register or a value. -/
def StoreOp.table : Mnemonics StoreOp :=
  #[("cmp", cmp), ("mov", mov)]

end X86Listing
