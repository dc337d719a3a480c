import X86Listing.Operand.Token
import X86Listing.Source.Line

/-!
# Kinds of source line

Apart from instructions and data declarations a listing has lines that give it
its structure.

* `headerName?`: a procedure starts with `name proc near`.
* `endsProcedure`: it ends with a line that holds the word `endp`.
* `section?`: `.data` and `.code` switch between data and code.
* `label?`: `name:` marks the next instruction.
* `local?`: `name = dword ptr 8` gives a name to an offset from the frame
  pointer.

All of them look at the line as it stands.  Keywords are read in either case.
-/

namespace X86Listing

open Text (isBlank isSpace pieces SameLetters)

/-- The two kinds of section. -/
inductive Section where
  /-- Declarations of bytes. -/
  | data
  /-- Instructions. -/
  | code
deriving DecidableEq, Repr

/-- The name of a section. -/
def Section.name : Section → String
  | data => "data"
  | code => "code"

/-- The word before the first two words `proc near` that stand side by side. -/
def nameBeforeProc? : List (List Char) → Option (List Char)
  | name :: second :: third :: rest =>
    if SameLetters second "proc".toList ∧ SameLetters third "near".toList then
      some name
    else
      nameBeforeProc? (second :: third :: rest)
  | _ => none

/-- The name of the procedure that a line opens. -/
def headerName? (line : List Char) : Option (List Char) :=
  nameBeforeProc? (pieces ' ' line)

/-- Does the line close a procedure? -/
def endsProcedure (line : List Char) : Bool :=
  (pieces ' ' line).any fun word => decide (SameLetters word "endp".toList)

/-- The section that a line switches to. -/
def section? (line : List Char) : Option Section :=
  let head := line.take 5
  if SameLetters head ".data".toList then some .data
  else if SameLetters head ".code".toList then some .code
  else none

/-- The name before the colon of a label line.  It is not empty and holds no
blank. -/
def label? (line : List Char) : Option (List Char) :=
  let name := line.takeWhile fun c => !(c == ':' || isBlank c)
  if name ≠ [] ∧ startsWith (· == ':') (line.drop name.length) then some name else none

/-- The widths that the declaration of a local can name. -/
def isWidth (word : List Char) : Bool :=
  SameLetters word "dword".toList || SameLetters word "word".toList ||
    SameLetters word "byte".toList || SameLetters word "qword".toList

/-- The name and the offset of a declared local.  What follows the offset is not
looked at. -/
def local? (line : List Char) : Option (List Char × UInt32) := do
  let (name, rest) ← identifier? line
  let rest ← skipChar? '=' rest
  let rest := skipSpaces rest
  let width := rest.takeWhile fun c => !isSpace c
  if isWidth width then
    let rest := skipSpaces (rest.drop width.length)
    let rest := (keyword? "ptr".toList rest).getD rest
    let (value, _) ← number? rest
    return (name, value)
  else
    none

end X86Listing
