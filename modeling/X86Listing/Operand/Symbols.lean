import X86Listing.Memory.DataSegment
import X86Listing.Operand.Token

/-!
# Symbols

An operand can name three kinds of thing: a local of the procedure, a label of
its code, and a label of the data segment.  `Symbols` holds the tables in which
such names are looked up.

* `Symbols.local?` reads the name of a local.
* `Symbols.offset?` reads the name of a label of code or data, with an optional
  segment and the optional word `short` before it.
* `Symbols.value?` reads a number, a local or a label, and the first of the three
  that fits is taken.
-/

namespace X86Listing

open Text (SameLetters)

/-- The tables in which the names of an operand are looked up. -/
structure Symbols where
  /-- The offsets of the locals from the frame pointer. -/
  locals : NameMap UInt32
  /-- The addresses of the code labels. -/
  labels : NameMap UInt32
  /-- The data segment with its labels. -/
  data : DataSegment

namespace Symbols

/-- The address of a label in a segment.  `ds` holds the data labels and `cs` the
code labels; any other segment, or none, means a code label or else a data
label. -/
def address? (symbols : Symbols) (segment : Option (List Char)) (name : String) :
    Option UInt32 :=
  let anywhere := (symbols.labels.get? name).or (symbols.data.address? name)
  match segment with
  | none => anywhere
  | some segment =>
    if SameLetters segment "ds".toList then symbols.data.address? name
    else if SameLetters segment "cs".toList then symbols.labels.get? name
    else anywhere

/-- The name of a local, which stands for its offset. -/
def local? (symbols : Symbols) : Reader UInt32 := fun text =>
  match identifier? text with
  | none => none
  | some (name, rest) =>
    match symbols.locals.get? (String.ofList name) with
    | none => none
    | some value => some (value, rest)

/-- The segment before a label, if there is one, and the text behind it. -/
def skipSegment (text : List Char) : Option (List Char) × List Char :=
  match segment? text with
  | some (segment, rest) => (some segment, rest)
  | none => (none, text)

/-- The text behind the word `short`, if it starts with it. -/
def skipShort (text : List Char) : List Char :=
  (keyword? "short".toList text).getD text

/-- The name of a label, which stands for its address. -/
def offset? (symbols : Symbols) : Reader UInt32 := fun text =>
  let (segment, rest) := skipSegment text
  match identifier? (skipShort rest) with
  | none => none
  | some (name, rest) =>
    match symbols.address? segment (String.ofList name) with
    | none => none
    | some value => some (value, rest)

/-- A number, a local or a label. -/
def value? (symbols : Symbols) : Reader UInt32 := fun text =>
  (number? text).or ((symbols.local? text).or (symbols.offset? text))

end Symbols

end X86Listing
