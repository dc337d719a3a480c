import X86Listing.Declaration
import X86Listing.Instruction.Decode
import X86Listing.Procedure.Survey

/-!
# Compiling a procedure

`compile` takes the first procedure of a listing.  The lines before the header
are passed over, and so are the lines behind the end of the procedure.

After the first reading all locals and labels are known.  The second reading
decodes the instructions and appends the declared data to the data segment.  A
declaration can name the data declared before it, but not the data behind it.

The second reading fills the data segment as it goes, so an error can find some
declarations of the procedure in the segment already.  `Assembly` is a computation
of this kind.  `compileBody` keeps the segment from before and puts it back when
it fails.  `compile` answers the procedure together with the data segment that it
leaves.
-/

namespace X86Listing

/-! ## Errors -/

/-- The compile error that an error of one line becomes. -/
def Line.error (line : Line) (code : ErrorCode) (message : String) : CompileError :=
  .located code message line.number (String.ofList line.text)

/-- The compile error of a line that could not be decoded. -/
def Line.decodeError (line : Line) (e : DecodeError) : CompileError :=
  line.error e.code e.message

/-- The code of the compile error that a refused declaration becomes. -/
def DataError.code : DataError → ErrorCode
  | exhausted .. => .dataExhausted
  | notLastChunk _ => .duplicateData

/-- The compile error of a line whose data was refused. -/
def Line.dataError (line : Line) (e : DataError) : CompileError :=
  line.error e.code e.message

/-! ## The second reading -/

/-- A computation that can add to the data segment and can end in an error.  An
error leaves the segment as it was found. -/
abbrev Assembly := EStateM CompileError DataSegment

/-- The label that a declaration adds to: its own, or the last one before it. -/
def dataLabel (last : Option String) (line : Line) (declaration : Declaration) :
    Except CompileError String :=
  match declaration.label, last with
  | some label, _ => .ok (String.ofList label)
  | none, some label => .ok label
  | none, none =>
    .error (line.error .invalidData "data continuation without a preceding label")

/-- The label that a line declares data under, and the data segment after it. -/
def appendDeclaration (symbols : Symbols) (last : Option String) (line : Line) :
    Except CompileError (String × DataSegment) := do
  let declaration ← (Declaration.decode symbols line.text).mapError line.decodeError
  let label ← dataLabel last line declaration
  let data ← (symbols.data.add label declaration.bytes declaration.bytes.length).mapError
    line.dataError
  return (label, data)

/-- Adds the data that a line declares to the data segment, and answers the label
that it is under. -/
def declare (locals : NameMap UInt32) (labels : Labels) (last : Option String) (line : Line) :
    Assembly String := do
  match appendDeclaration ⟨locals, labels, ← get⟩ last line with
  | .error e => throw e
  | .ok (label, data) =>
    set data
    return label

/-- Decodes the instruction of a line. -/
def decodeLine (locals : NameMap UInt32) (labels : Labels) (line : Line) :
    Assembly Instruction := do
  match decode ⟨locals, labels, ← get⟩ line.text with
  | .error e => throw (line.decodeError e)
  | .ok instruction => return instruction

/-- The instructions of a procedure's lines.  The data that the lines declare goes
into the data segment; `last` is the label of the last declaration. -/
def assemble (locals : NameMap UInt32) (labels : Labels) (current : Section)
    (last : Option String) : List Line → Assembly (List Instruction)
  | [] => return []
  | line :: rest =>
    match LineKind.switchFirst current line.text with
    | .localName .. => assemble locals labels current last rest
    | .switch target => assemble locals labels target last rest
    | .data => do
      let label ← declare locals labels last line
      assemble locals labels current (some label) rest
    | .label _ => assemble locals labels current last rest
    | .closing => return []
    | .code => do
      let instruction ← decodeLine locals labels line
      let instructions ← assemble locals labels current last rest
      return instruction :: instructions

/-! ## Procedures -/

/-- The name in the first header among lines, and the lines behind it. -/
def splitHeader? : List Line → Option (String × List Line)
  | [] => none
  | line :: rest =>
    match headerName? line.text with
    | some name => some (String.ofList name, rest)
    | none => splitHeader? rest

/-- The name of the first procedure of a listing. -/
def procedureName? (source : String) : Option String :=
  (splitHeader? (Line.ofSource source)).map Prod.fst

/-- Compiles the procedure with a name and a body.  An error puts the data segment
back to what it was. -/
def compileBody (name : String) (body : List Line) : Assembly Procedure := do
  let survey := survey body
  if !survey.closed then
    throw (.unlocated .missingEnd s!"procedure '{name}' has no `endp`")
  else if survey.count = 0 then
    throw (.unlocated .emptyProcedure s!"procedure '{name}' has no instructions")
  else do
    let labels := Labels.resolve survey.labels
    let snapshot ← get
    let instructions ←
      try assemble survey.locals labels .code none (behindLocals body)
      catch e => do
        set snapshot
        throw e
    let found := instructions.length
    if found ≠ survey.count then do
      set snapshot
      throw (.unlocated .countMismatch
        s!"procedure '{name}': compiled {found} instructions, expected {survey.count}")
    else
      return ⟨name, survey.locals, labels, instructions.toArray⟩

/-- Compiles the first procedure of a listing into the data segment. -/
def compileInto (source : String) : Assembly Procedure :=
  match splitHeader? (Line.ofSource source) with
  | none => throw (.unlocated .missingHeader "missing `<name> proc near` header")
  | some (name, body) => compileBody name body

/-- The first procedure of a listing, and the data segment after it. -/
def compile (source : String) (data : DataSegment) :
    Except CompileError (Procedure × DataSegment) :=
  match compileInto source data with
  | .ok procedure data => .ok (procedure, data)
  | .error e _ => .error e

end X86Listing
