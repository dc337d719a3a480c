import X86Listing.Procedure.Basic
import X86Listing.Source.Classify

/-!
# The first reading of a procedure

A label may be used before the line that it marks, so a procedure is read twice.
The first reading collects the locals and the labels, counts the instructions, and
finds out whether the procedure is closed.

`LineKind.of` tells what a line of the body is, given the section it stands in.
The first reading looks for a local before it looks for a switch of section.  The
second reading does it the other way round (`LineKind.switchFirst`) and starts
behind the locals that open the body (`behindLocals`).

`survey` is the first reading; `Survey.read` is its step for one line.
-/

namespace X86Listing

/-- What a line of a procedure is. -/
inductive LineKind where
  /-- The declaration of a local. -/
  | localName (name : List Char) (value : UInt32)
  /-- A switch to a section. -/
  | switch (target : Section)
  /-- A declaration of data. -/
  | data
  /-- A label of the next instruction. -/
  | label (name : List Char)
  /-- The end of the procedure. -/
  | closing
  /-- An instruction. -/
  | code
deriving DecidableEq, Repr

namespace LineKind

/-- What a line is in a section if it is neither a local nor a switch.  In a data
section it is a declaration of data, even with the word `endp` in it. -/
def inSection (current : Section) (text : List Char) : LineKind :=
  if current = .data then .data
  else
    match label? text with
    | some name => .label name
    | none => if endsProcedure text then .closing else .code

/-- What a line is to the first reading, which looks for a local first. -/
def of (current : Section) (text : List Char) : LineKind :=
  match local? text with
  | some (name, value) => .localName name value
  | none =>
    match section? text with
    | some target => .switch target
    | none => inSection current text

/-- What a line is to the second reading, which looks for a switch first. -/
def switchFirst (current : Section) (text : List Char) : LineKind :=
  match section? text with
  | some target => .switch target
  | none =>
    match local? text with
    | some (name, value) => .localName name value
    | none => inSection current text

end LineKind

/-- The lines of a body behind the locals that open it. -/
def behindLocals (body : List Line) : List Line :=
  body.dropWhile fun line => (local? line.text).isSome

/-- What the first reading of a procedure finds. -/
structure Survey where
  /-- The locals, the last declaration of each name. -/
  locals : NameMap UInt32
  /-- The labels, the last one of each name. -/
  labels : PendingLabels
  /-- The number of instructions. -/
  count : Nat
  /-- Is the procedure closed? -/
  closed : Bool

namespace Survey

/-- The findings before the first line. -/
def start : Survey := ⟨.empty, .empty, 0, false⟩

/-- The findings after more lines of a section. -/
def read (survey : Survey) (current : Section) : List Line → Survey
  | [] => survey
  | line :: rest =>
    match LineKind.of current line.text with
    | .localName name value =>
      read { survey with locals := survey.locals.insert (String.ofList name) value } current rest
    | .switch target => read survey target rest
    | .data => read survey current rest
    | .label name =>
      read { survey with labels := survey.labels.insert (String.ofList name) survey.count }
        current rest
    | .closing => { survey with closed := true }
    | .code => read { survey with count := survey.count + 1 } current rest

end Survey

/-- The first reading of the body of a procedure, which starts with code. -/
def survey (body : List Line) : Survey :=
  Survey.start.read .code body

end X86Listing
