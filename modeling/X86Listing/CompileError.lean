/-!
# Compile errors

A compile error has a code of three digits, and the hundreds of the code are its
category.  It names the line that is at fault, in normal form, or line zero when
it concerns the procedure as a whole.
-/

namespace X86Listing

/-- What a compile error is about. -/
inductive ErrorCategory where
  /-- The form of a line. -/
  | syntactic
  /-- The meaning of a name. -/
  | symbolic
  /-- The make-up of the procedure. -/
  | structural
deriving DecidableEq, Repr

namespace ErrorCategory

/-- The name of a category. -/
def name : ErrorCategory → String
  | syntactic => "syntax"
  | symbolic => "symbol"
  | structural => "structure"

/-- The category of a name. -/
def ofName? : String → Option ErrorCategory
  | "syntax" => some syntactic
  | "symbol" => some symbolic
  | "structure" => some structural
  | _ => none

@[simp]
theorem ofName?_name (category : ErrorCategory) : ofName? category.name = some category := by
  cases category <;> rfl

end ErrorCategory

/-- The code of a compile error. -/
structure ErrorCode where
  number : UInt16
deriving DecidableEq, Repr

namespace ErrorCode

/-- An operand list that does not have the form of any instruction. -/
def malformedOperand : ErrorCode := ⟨100⟩

/-- A mnemonic that does not take the operands given. -/
def unknownMnemonic : ErrorCode := ⟨101⟩

/-- Something else in the place of a register. -/
def unknownRegister : ErrorCode := ⟨102⟩

/-- A malformed declaration of data. -/
def invalidData : ErrorCode := ⟨103⟩

/-- A name that is declared nowhere. -/
def unresolvedSymbol : ErrorCode := ⟨200⟩

/-- A data label that is declared again too late. -/
def duplicateData : ErrorCode := ⟨201⟩

/-- A listing without a procedure. -/
def missingHeader : ErrorCode := ⟨300⟩

/-- A procedure without instructions. -/
def emptyProcedure : ErrorCode := ⟨301⟩

/-- A procedure whose two readings differ in length. -/
def countMismatch : ErrorCode := ⟨302⟩

/-- More data than the data segment has room for. -/
def dataExhausted : ErrorCode := ⟨303⟩

/-- A procedure that is not closed. -/
def missingEnd : ErrorCode := ⟨304⟩

/-- The category of a code. -/
def category (code : ErrorCode) : ErrorCategory :=
  if 100 ≤ code.number ∧ code.number ≤ 199 then .syntactic
  else if 200 ≤ code.number ∧ code.number ≤ 299 then .symbolic
  else .structural

/-- The text of a code, such as `E101`. -/
def text (code : ErrorCode) : String :=
  "E" ++ toString code.number.toNat

end ErrorCode

/-- Why a procedure could not be compiled. -/
structure CompileError where
  code : ErrorCode
  category : ErrorCategory
  /-- What is wrong. -/
  message : String
  /-- The number of the line at fault, or zero. -/
  line : UInt32
  /-- The line at fault in normal form, or nothing. -/
  sourceLine : String
deriving DecidableEq, Repr

namespace CompileError

/-- An error of one line. -/
def located (code : ErrorCode) (message : String) (line : UInt32) (sourceLine : String) :
    CompileError :=
  ⟨code, code.category, message, line, sourceLine⟩

/-- An error of the procedure as a whole. -/
def unlocated (code : ErrorCode) (message : String) : CompileError :=
  located code message 0 ""

/-- The text of an error, with its line at the end if it has one. -/
def text (e : CompileError) : String :=
  let head := s!"{e.line.toNat}: " ++ e.code.text ++ s!" [{e.category.name}] {e.message}"
  if e.sourceLine = "" then head else head ++ s!" `{e.sourceLine}`"

end CompileError

end X86Listing
