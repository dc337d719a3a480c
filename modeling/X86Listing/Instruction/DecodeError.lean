import X86Listing.CompileError
import X86Listing.Instruction.Basic

/-!
# Decode errors

A line that is no instruction and no declaration is refused with a
`DecodeError`.  The text that could not be read is quoted from the place where
reading stopped to the end of the line.
-/

namespace X86Listing

/-- Why a line could not be decoded. -/
inductive DecodeError where
  /-- The line does not start with a mnemonic. -/
  | missingMnemonic
  /-- Something else stands in the place of a register. -/
  | expectedRegister (found : String)
  /-- Something else stands in the place of what was expected. -/
  | malformed (expected found : String)
  /-- Text is left behind the last operand. -/
  | trailing (text : String)
  /-- The mnemonic does not take operands of this shape. -/
  | unknownMnemonic (mnemonic : String) (shape : Shape)
  /-- A name is declared nowhere. -/
  | unresolved (name : String)
  /-- A declaration of data is malformed. -/
  | invalidData (reason : String)
deriving DecidableEq, Repr

namespace DecodeError

/-- The text of a decode error. -/
def message : DecodeError → String
  | missingMnemonic => "expected a mnemonic"
  | expectedRegister found => s!"expected a register at `{found}`"
  | malformed expected found => s!"expected {expected} at `{found}`"
  | trailing text => s!"unexpected trailing text `{text}`"
  | unknownMnemonic mnemonic shape =>
    s!"unknown mnemonic '{mnemonic}' for operands `{shape.operands}`"
  | unresolved name => s!"unresolved symbol '{name}'"
  | invalidData reason => s!"invalid data: {reason}"

/-- The code of the compile error that a decode error becomes. -/
def code : DecodeError → ErrorCode
  | missingMnemonic => .malformedOperand
  | expectedRegister _ => .unknownRegister
  | malformed .. => .malformedOperand
  | trailing _ => .malformedOperand
  | unknownMnemonic .. => .unknownMnemonic
  | unresolved _ => .unresolvedSymbol
  | invalidData _ => .invalidData

/-- The name of the kind of a decode error. -/
def kind : DecodeError → String
  | missingMnemonic => "MissingMnemonic"
  | expectedRegister _ => "ExpectedRegister"
  | malformed .. => "Malformed"
  | trailing _ => "Trailing"
  | unknownMnemonic .. => "UnknownMnemonic"
  | unresolved _ => "Unresolved"
  | invalidData _ => "InvalidData"

end DecodeError

end X86Listing
