import X86Listing.Text.Blank
import X86Listing.Text.Pieces

/-!
# Source lines

A listing is read line by line, and every line is brought into a normal form
first.  `normalize` drops carriage returns, cuts the line at the first `;`, and
turns every run of blanks into one space, with none at either end.  Text between
quotes is kept as it is, and a quote that is not closed reaches to the end of the
line.

`Line.ofSource` gives the lines of a listing that are not empty in normal form,
with their numbers.
-/

namespace X86Listing

open Text (isBlank pieces)

/-- The character that opens and closes a quotation. -/
def isQuote (c : Char) : Bool :=
  c == '\x22' || c == '\x27'

/-- The normal form of the rest of a line.  `quote` is the quote that the rest
stands in, `started` says whether anything was written before, and `pending`
whether blanks were met since. -/
def normalizeFrom (quote : Option Char) (started pending : Bool) : List Char → List Char
  | [] => []
  | c :: rest =>
    match quote with
    | some q => c :: normalizeFrom (if c = q then none else some q) true false rest
    | none =>
      if c = ';' then
        []
      else if c = '\r' then
        normalizeFrom none started pending rest
      else if isBlank c then
        normalizeFrom none started true rest
      else
        let tail := c :: normalizeFrom (if isQuote c then some c else none) true false rest
        if pending && started then ' ' :: tail else tail

/-- The normal form of a line. -/
def normalize (raw : List Char) : List Char :=
  normalizeFrom none false false raw

/-- A line of a listing in normal form. -/
structure Line where
  /-- The number of the line, counted from one. -/
  number : UInt32
  /-- The normal form, which is not empty. -/
  text : List Char
deriving DecidableEq, Repr

namespace Line

/-- The lines with text among raw lines, the first of which is line
`index + 1`. -/
def ofRaw (index : Nat) : List (List Char) → List Line
  | [] => []
  | raw :: rest =>
    match normalize raw with
    | [] => ofRaw (index + 1) rest
    | text => ⟨UInt32.ofNat (index + 1), text⟩ :: ofRaw (index + 1) rest

/-- The lines with text of a listing. -/
def ofSource (source : String) : List Line :=
  ofRaw 0 (pieces '\n' source.toList)

end Line

end X86Listing
