import X86Listing.Instruction.Mnemonic
import X86Listing.Operand.Token

/-!
# How instructions are spelled

A line spells an instruction as a mnemonic and a list of tokens.  Letters may stand
in either case, a number in decimal or in hexadecimal, and any number of spaces
behind a token.  This module says which lines spell which instruction, without
reference to how lines are read.

* `Instruction.WellFormed` holds of the instructions of the dialect.
* `Literal` relates a number to its spellings, and `Token.Spelled` a token.
* `Spells` relates a list of tokens to its spellings, with spaces behind each token.
* `Instruction.Tokens` lists the tokens of an instruction.  A displacement can be
  written in up to three ways.
* `Instruction.SpelledBy` puts the mnemonic in front.
-/

namespace X86Listing

open Text (isSpace isHexDigit ofDigits SameLetters)

/-! ## The instructions of the dialect -/

/-- Is the operation in the table? -/
def Mnemonics.Lists {α : Type} (table : Mnemonics α) (op : α) : Prop :=
  ∃ mnemonic, (mnemonic, op) ∈ table

/-- A letter or `_`, and then letters, digits and `_`. -/
def IsIdentifier (text : List Char) : Prop :=
  startsWith startsIdentifier text = true ∧ ∀ c ∈ text, continuesIdentifier c = true

/-- Does the text spell a register, in either case? -/
def SpellsRegister (text : List Char) : Prop :=
  ∃ name reg, (name, reg) ∈ Reg.spellings ∧ SameLetters name.toList text

namespace Instruction

/-- The mnemonic of an instruction. -/
def mnemonic : Instruction → String
  | retn => "retn"
  | call _ => "call"
  | reg op _ => op.mnemonic
  | imm op _ => op.mnemonic
  | regReg op .. => op.mnemonic
  | shrd .. => "shrd"
  | regImm op .. => op.mnemonic
  | regMem op .. => op.mnemonic
  | lea .. => "lea"
  | jumpTable condition .. => condition.mnemonic
  | mem op _ => op.mnemonic
  | memReg op .. => op.mnemonic
  | memImm op .. => op.mnemonic

/-- The registers that an instruction names. -/
def registers : Instruction → List Reg
  | retn | call _ | imm _ _ => []
  | reg _ r0 | regImm _ r0 _ | jumpTable _ _ r0 _ => [r0]
  | regReg _ r0 r1 => [r0, r1]
  | shrd r0 r1 r2 | lea r0 r1 r2 _ _ => [r0, r1, r2]
  | regMem _ r0 operand => [r0, operand.base]
  | mem _ operand | memImm _ operand _ => [operand.base]
  | memReg _ operand r1 => [operand.base, r1]

/-- An instruction of the dialect: its registers have names, its operation is in the
table of its shape, and its target is an identifier that names no register. -/
def WellFormed : Instruction → Prop
  | retn => True
  | call target => IsIdentifier target.toList ∧ ¬SpellsRegister target.toList
  | reg op r0 => RegOp.table.Lists op ∧ r0.IsSpelled
  | imm op _ => ImmOp.table.Lists op
  | regReg op r0 r1 => PairOp.registerTable.Lists op ∧ r0.IsSpelled ∧ r1.IsSpelled
  | shrd r0 r1 r2 => r0.IsSpelled ∧ r1.IsSpelled ∧ r2.IsSpelled
  | regImm op r0 _ => PairOp.valueTable.Lists op ∧ r0.IsSpelled
  | regMem op r0 operand => LoadOp.table.Lists op ∧ r0.IsSpelled ∧ operand.base.IsSpelled
  | lea r0 r1 r2 _ _ => r0.IsSpelled ∧ r1.IsSpelled ∧ r2.IsSpelled
  | jumpTable condition _ r0 _ => Condition.table.Lists condition ∧ r0.IsSpelled
  | mem op operand => WideOp.table.Lists op ∧ operand.base.IsSpelled
  | memReg op operand r1 => StoreOp.table.Lists op ∧ operand.base.IsSpelled ∧ r1.IsSpelled
  | memImm op operand _ => StoreOp.table.Lists op ∧ operand.base.IsSpelled

end Instruction

/-! ## Tokens -/

/-- The spellings of a number: decimal digits, or hexadecimal digits that start with
a decimal one, with an `h` behind them. -/
inductive Literal (value : UInt32) : List Char → Prop where
  | decimal {digits : List Char} (hne : digits ≠ [])
      (hdigits : ∀ c ∈ digits, c.isDigit = true)
      (hvalue : ofDigits 10 digits = value.toNat) : Literal value digits
  | hexadecimal {first mark : Char} {digits : List Char} (hfirst : first.isDigit = true)
      (hdigits : ∀ c ∈ digits, isHexDigit c = true) (hmark : mark = 'h' ∨ mark = 'H')
      (hvalue : ofDigits 16 (first :: digits) = value.toNat) :
      Literal value (first :: digits ++ [mark])

/-- The characters that stand between registers and numbers. -/
def marks : List Char :=
  ['[', ']', '+', '-', '*', ',']

/-- A token of an operand list. -/
inductive Token where
  | reg (reg : Reg)
  | number (value : UInt32)
  | mark (c : Char)
  | name (target : String)

/-- The spellings of a token. -/
inductive Token.Spelled : Token → List Char → Prop where
  | reg {reg : Reg} {word : List Char} (h : SameLetters reg.name.toList word) :
      Spelled (.reg reg) word
  | number {value : UInt32} {word : List Char} (h : Literal value word) :
      Spelled (.number value) word
  | mark {c : Char} (h : c ∈ marks) : Spelled (.mark c) [c]
  | name {target : String} (h : IsIdentifier target.toList) :
      Spelled (.name target) target.toList

/-- The spellings of a list of tokens, with any number of spaces behind each. -/
inductive Spells : List Token → List Char → Prop where
  | nil : Spells [] []
  | cons {token : Token} {tokens : List Token} {word gap rest : List Char}
      (hword : token.Spelled word) (hgap : ∀ c ∈ gap, isSpace c = true)
      (hrest : Spells tokens rest) : Spells (token :: tokens) (word ++ (gap ++ rest))

/-! ## Instructions -/

/-- The tokens behind the base register of a memory operand, with the closing bracket.
A displacement of zero can be left out, and any displacement can be added or its
negation subtracted. -/
inductive DisplacementTokens : UInt32 → List Token → Prop where
  | zero : DisplacementTokens 0 [.mark ']']
  | plus (v : UInt32) : DisplacementTokens v [.mark '+', .number v, .mark ']']
  | minus (v : UInt32) : DisplacementTokens (-v) [.mark '-', .number v, .mark ']']

/-- The sign of an index as a character. -/
def IndexOp.mark : IndexOp → Char
  | add => '+'
  | mul => '*'

/-- The tokens behind the mnemonic of an instruction. -/
inductive Instruction.Tokens : Instruction → List Token → Prop where
  | retn : Tokens .retn []
  | call (target : String) : Tokens (.call target) [.name target]
  | reg (op : RegOp) (r0 : Reg) : Tokens (.reg op r0) [.reg r0]
  | imm (op : ImmOp) (v0 : UInt32) : Tokens (.imm op v0) [.number v0]
  | regReg (op : PairOp) (r0 r1 : Reg) :
      Tokens (.regReg op r0 r1) [.reg r0, .mark ',', .reg r1]
  | shrd (r0 r1 r2 : Reg) :
      Tokens (.shrd r0 r1 r2) [.reg r0, .mark ',', .reg r1, .mark ',', .reg r2]
  | regImm (op : PairOp) (r0 : Reg) (v0 : UInt32) :
      Tokens (.regImm op r0 v0) [.reg r0, .mark ',', .number v0]
  | regMem (op : LoadOp) (r0 base : Reg) {disp : UInt32} {tail : List Token}
      (h : DisplacementTokens disp tail) :
      Tokens (.regMem op r0 ⟨base, disp⟩)
        (.reg r0 :: .mark ',' :: .mark '[' :: .reg base :: tail)
  | lea (r0 r1 r2 : Reg) (index : IndexOp) (v0 : UInt32) :
      Tokens (.lea r0 r1 r2 index v0)
        [.reg r0, .mark ',', .mark '[', .reg r1, .mark '+', .reg r2, .mark index.mark,
          .number v0, .mark ']']
  | jumpTable (condition : Condition) (v0 : UInt32) (r0 : Reg) (v1 : UInt32) :
      Tokens (.jumpTable condition v0 r0 v1)
        [.number v0, .mark '[', .reg r0, .mark '*', .number v1, .mark ']']
  | mem (op : WideOp) (base : Reg) {disp : UInt32} {tail : List Token}
      (h : DisplacementTokens disp tail) :
      Tokens (.mem op ⟨base, disp⟩) (.mark '[' :: .reg base :: tail)
  | memReg (op : StoreOp) (base r1 : Reg) {disp : UInt32} {tail : List Token}
      (h : DisplacementTokens disp tail) :
      Tokens (.memReg op ⟨base, disp⟩ r1)
        (.mark '[' :: .reg base :: (tail ++ [.mark ',', .reg r1]))
  | memImm (op : StoreOp) (base : Reg) (v1 : UInt32) {disp : UInt32} {tail : List Token}
      (h : DisplacementTokens disp tail) :
      Tokens (.memImm op ⟨base, disp⟩ v1)
        (.mark '[' :: .reg base :: (tail ++ [.mark ',', .number v1]))

/-- The lines that spell an instruction: its mnemonic in either case, spaces, of which
there is at least one before an operand, and its tokens. -/
def Instruction.SpelledBy (instruction : Instruction) (line : List Char) : Prop :=
  ∃ tokens word gap rest, instruction.Tokens tokens ∧
    SameLetters instruction.mnemonic.toList word ∧ (∀ c ∈ gap, isSpace c = true) ∧
    (tokens ≠ [] → gap ≠ []) ∧ Spells tokens rest ∧ line = word ++ (gap ++ rest)

/-- The first word of a line, which ends at the first space. -/
def firstWord (line : List Char) : List Char :=
  line.takeWhile fun c => !isSpace c

end X86Listing
