import X86Listing.Instruction.DecodeError
import X86Listing.Instruction.Mnemonic
import X86Listing.Operand.Symbols
import X86Listing.Text.Pieces

/-!
# Decoding instructions

`decode` reads a line as an instruction.  The line starts with a mnemonic.  The
shape of the operand list is found from the operands alone, and the mnemonic is
then looked up in the table of that shape.

The first operand decides how the others are read.

* Nothing: `retn`.
* A bracket: an operation on memory, alone or with a register or a value.
* A register: an operation on that register and what follows it.
* Otherwise the mnemonic `call` takes a name, and any other mnemonic takes a
  value, with an index in brackets behind it in the case of a jump table.

Within brackets a register is followed by a displacement, or by a second
register and a value.  A second register is tried first, since `[eax+ecx*4]` and
`[eax+4]` start alike.
-/

namespace X86Listing

/-- A step of decoding, which takes operands from the front of a text. -/
abbrev Decoder (α : Type) := List Char → Except DecodeError (α × List Char)

namespace Decoder

/-! ## Parts of an operand -/

/-- The operation of a mnemonic, which has to be in the table of a shape. -/
def select {α : Type} (table : Mnemonics α) (mnemonic : List Char) (shape : Shape) :
    Except DecodeError α :=
  match table.find? mnemonic with
  | some op => .ok op
  | none => .error (.unknownMnemonic (String.ofList mnemonic) shape)

/-- The error of a text that is no operand.  It is an unresolved name if the last
word of the text starts like an identifier. -/
def unreadable (expected : String) (text : List Char) : DecodeError :=
  let word := Text.afterLast (fun c => c == ':' || c == ' ') text
  let name := word.takeWhile continuesIdentifier
  if startsWith startsIdentifier name then .unresolved (String.ofList name)
  else .malformed expected (String.ofList text)

/-- A register. -/
def register : Decoder Reg := fun text =>
  match register? text with
  | some result => .ok result
  | none => .error (.expectedRegister (String.ofList text))

/-- A number, a local or a label. -/
def value (symbols : Symbols) : Decoder UInt32 := fun text =>
  match symbols.value? text with
  | some result => .ok result
  | none => .error (unreadable "a value" text)

/-- The text behind a character and the spaces that follow it. -/
def punctuation (c : Char) (expected : String) (text : List Char) :
    Except DecodeError (List Char) :=
  match skipChar? c text with
  | some rest => .ok (skipSpaces rest)
  | none => .error (.malformed expected (String.ofList text))

/-- Nothing may be left of the line. -/
def finish (text : List Char) : Except DecodeError Unit :=
  if text = [] then .ok () else .error (.trailing (String.ofList text))

/-- The displacement behind the base register of a memory operand, up to the
closing bracket. -/
def displacement (symbols : Symbols) : Decoder UInt32 := fun text =>
  match skipChar? ']' text with
  | some rest => .ok (0, skipSpaces rest)
  | none =>
    match skipChar? '+' text, skipChar? '-' text with
    | some rest, _ => do
      let (v, rest) ← value symbols (skipSpaces rest)
      let rest ← punctuation ']' "`]`" rest
      return (v, rest)
    | none, some rest => do
      let (v, rest) ← value symbols (skipSpaces rest)
      let rest ← punctuation ']' "`]`" rest
      return (-v, rest)
    | none, none => .error (.malformed "`+`, `-` or `]`" (String.ofList text))

/-- A memory operand. -/
def memory (symbols : Symbols) : Decoder MemoryOperand := fun text => do
  let rest ← punctuation '[' "`[`" text
  let (base, rest) ← register rest
  let (disp, rest) ← displacement symbols rest
  return (⟨base, disp⟩, rest)

/-! ## Operand lists -/

/-- An instruction whose first operand is in memory. -/
def memoryFirst (mnemonic : List Char) (symbols : Symbols) (text : List Char) :
    Except DecodeError Instruction := do
  let (mem, rest) ← memory symbols text
  let rest := skipCommas rest
  if rest = [] then
    let op ← select WideOp.table mnemonic .mem
    return .mem op mem
  else
    match register? rest with
    | some (r1, rest) =>
      finish rest
      let op ← select StoreOp.table mnemonic .memReg
      return .memReg op mem r1
    | none =>
      let (v1, rest) ← value symbols rest
      finish rest
      let op ← select StoreOp.table mnemonic .memImm
      return .memImm op mem v1

/-- The second register behind the base of an address, if there is one. -/
def index? (text : List Char) : Option (Reg × List Char) :=
  match skipChar? '+' text with
  | none => none
  | some rest => register? (skipSpaces rest)

/-- The sign between the last two parts of an address. -/
def indexSign : Decoder IndexOp := fun text =>
  match skipChar? '+' text, skipChar? '*' text with
  | some rest, _ => .ok (.add, skipSpaces rest)
  | none, some rest => .ok (.mul, skipSpaces rest)
  | none, none => .error (.malformed "`+` or `*`" (String.ofList text))

/-- An instruction with a register and a bracket. -/
def registerMemory (mnemonic : List Char) (r0 : Reg) (symbols : Symbols) (text : List Char) :
    Except DecodeError Instruction := do
  let rest ← punctuation '[' "`[`" text
  let (r1, rest) ← register rest
  match index? rest with
  | some (r2, rest) =>
    let (sign, rest) ← indexSign rest
    let (v0, rest) ← value symbols rest
    let rest ← punctuation ']' "`]`" rest
    finish rest
    select leaTable mnemonic .lea
    return .lea r0 r1 r2 sign v0
  | none =>
    let (disp, rest) ← displacement symbols rest
    finish rest
    let op ← select LoadOp.table mnemonic .regMem
    return .regMem op r0 ⟨r1, disp⟩

/-- The value behind a register: the address of a label behind the word `offset`,
a number, or a local. -/
def registerValue (symbols : Symbols) : Decoder UInt32 := fun text =>
  match keyword? "offset".toList text with
  | some rest =>
    match symbols.offset? rest with
    | some result => .ok result
    | none => .error (unreadable "an offset" rest)
  | none =>
    match (number? text).or (symbols.local? text) with
    | some result => .ok result
    | none => .error (unreadable "a register, memory operand or value" text)

/-- An instruction whose first operand is a register. -/
def registerFirst (mnemonic : List Char) (r0 : Reg) (symbols : Symbols) (text : List Char) :
    Except DecodeError Instruction := do
  let rest := skipCommas text
  if rest = [] then
    let op ← select RegOp.table mnemonic .reg
    return .reg op r0
  else
    match register? rest with
    | some (r1, rest) =>
      let rest := skipCommas rest
      if rest = [] then
        let op ← select PairOp.registerTable mnemonic .regReg
        return .regReg op r0 r1
      else
        let (r2, rest) ← register rest
        finish rest
        select shrdTable mnemonic .regRegReg
        return .shrd r0 r1 r2
    | none =>
      if startsWith (· == '[') rest then
        registerMemory mnemonic r0 symbols rest
      else
        let (v0, rest) ← registerValue symbols rest
        finish rest
        let op ← select PairOp.valueTable mnemonic .regImm
        return .regImm op r0 v0

/-- An instruction whose first operand is a value. -/
def valueFirst (mnemonic : List Char) (symbols : Symbols) (text : List Char) :
    Except DecodeError Instruction := do
  let (v0, rest) ← value symbols text
  match skipChar? '[' rest with
  | some rest =>
    let (r0, rest) ← register (skipSpaces rest)
    let rest ← punctuation '*' "`*`" rest
    let (v1, rest) ← value symbols rest
    let rest ← punctuation ']' "`]`" rest
    finish rest
    let condition ← select Condition.table mnemonic .jumpTable
    return .jumpTable condition v0 r0 v1
  | none =>
    finish rest
    let op ← select ImmOp.table mnemonic .imm
    return .imm op v0

/-- A call of a host function. -/
def callTarget (text : List Char) : Except DecodeError Instruction :=
  match identifier? text with
  | none => .error (.malformed "a call target" (String.ofList text))
  | some (target, rest) => do
    finish rest
    return .call (String.ofList target)

/-- An instruction with a given mnemonic. -/
def operands (mnemonic : List Char) (symbols : Symbols) (text : List Char) :
    Except DecodeError Instruction :=
  if text = [] then do
    select retnTable mnemonic .none
    return .retn
  else if startsWith (· == '[') text then
    memoryFirst mnemonic symbols text
  else
    match register? text with
    | some (r0, rest) => registerFirst mnemonic r0 symbols rest
    | none =>
      if (callTable.find? mnemonic).isSome then callTarget text
      else valueFirst mnemonic symbols text

end Decoder

/-- The instruction of a line in normal form. -/
def decode (symbols : Symbols) (line : List Char) : Except DecodeError Instruction :=
  match mnemonic? line with
  | none => .error .missingMnemonic
  | some (mnemonic, rest) => Decoder.operands mnemonic symbols rest

end X86Listing
