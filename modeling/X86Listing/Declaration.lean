import X86Listing.Instruction.DecodeError
import X86Listing.Operand.Progress
import X86Listing.Source.Line
import X86Listing.Text.Utf8

/-!
# Declarations of data

A line of a data section declares bytes.  It has an optional label, a directive
that gives the width of its elements, and the elements, with commas or spaces
between them.

* A number that fits the width, as an unsigned or as a negative number.
* `?`, which stands for zero.
* Quoted text, behind `db` only, which stands for its bytes in UTF-8.
* `offset` with the name of a label, behind `dd` only.

`Declaration.decode` reads such a line.  Every element takes at least one
character of the line (`Element.length_lt_of_read`), so the reading of a list of
elements ends.
-/

namespace X86Listing

open Text (isBlank isSpace SameLetters utf8Bytes hex)

/-! ## Directives -/

/-- The width of the elements of a declaration. -/
inductive Directive where
  /-- Bytes, behind `db`. -/
  | byte
  /-- Words of two bytes, behind `dw`. -/
  | word
  /-- Words of four bytes, behind `dd`. -/
  | dword
deriving DecidableEq, Repr

namespace Directive

/-- The spelling of a directive. -/
def name : Directive → String
  | byte => "db"
  | word => "dw"
  | dword => "dd"

/-- The directive that a word spells in either case. -/
def ofWord? (word : List Char) : Option Directive :=
  if SameLetters word "db".toList then some byte
  else if SameLetters word "dw".toList then some Directive.word
  else if SameLetters word "dd".toList then some dword
  else none

/-- The width of an element in bits. -/
def bits : Directive → Nat
  | byte => 8
  | word => 16
  | dword => 32

/-- The value that an element of this width takes for a word: the word itself if
it is small enough, or its low bits if it is the word of a negative number that
is. -/
def narrow? (directive : Directive) (value : UInt32) : Option UInt32 :=
  let limit := 2 ^ directive.bits
  if value.toNat < limit then some value
  else if 2 ^ 32 - limit / 2 ≤ value.toNat then some (UInt32.ofNat (value.toNat % limit))
  else none

/-- The bytes of an element, lowest first. -/
def encode (directive : Directive) (value : UInt32) : List UInt8 :=
  (bytesOfWord value).take (directive.bits / 8)

end Directive

/-! ## Elements -/

namespace Element

/-- Quoted text up to the closing quote, and the text behind that. -/
def quoted (quote : Char) (text : List Char) : Except DecodeError (List UInt8 × List Char) :=
  let inside := text.takeWhile fun c => c != quote
  match text.dropWhile fun c => c != quote with
  | [] => .error (.invalidData "unterminated string")
  | _ :: rest => .ok (utf8Bytes inside, rest)

/-- A text without the blanks at its ends. -/
def trim (text : List Char) : List Char :=
  ((text.dropWhile isBlank).reverse.dropWhile isBlank).reverse

/-- The text behind the word `offset`, which only `dd` takes. -/
def skipOffset? (directive : Directive) (text : List Char) : Option (List Char) :=
  if directive = .dword then keyword? "offset".toList text else none

/-- An element that is one word. -/
def value (directive : Directive) (symbols : Symbols) (text : List Char) :
    Except DecodeError (UInt32 × List Char) :=
  match skipChar? '?' text with
  | some rest => .ok (0, rest)
  | none =>
    match skipOffset? directive text with
    | some rest =>
      match symbols.offset? rest with
      | some result => .ok result
      | none => .error (.unresolved (String.ofList (trim rest)))
    | none =>
      match number? text with
      | none => .error (.invalidData s!"unexpected `{String.ofList text}`")
      | some (v, rest) =>
        match directive.narrow? v with
        | some v => .ok (v, rest)
        | none => .error (.invalidData (hex v.toNat ++ s!" does not fit {directive.bits} bits"))

/-- The bytes of the element at the front of a text. -/
def read (directive : Directive) (symbols : Symbols) (text : List Char) :
    Except DecodeError (List UInt8 × List Char) :=
  match text with
  | c :: rest =>
    if directive = .byte ∧ isQuote c then quoted c rest
    else (value directive symbols (c :: rest)).map fun (v, rest) => (directive.encode v, rest)
  | [] => .error (.invalidData "unexpected ``")

theorem length_lt_of_quoted {quote : Char} {text rest : List Char} {bytes : List UInt8}
    (h : quoted quote text = .ok (bytes, rest)) : rest.length < text.length := by
  simp only [quoted] at h
  split at h
  · simp at h
  · next c left hdrop =>
    simp only [Except.ok.injEq, Prod.mk.injEq] at h
    obtain ⟨-, rfl⟩ := h
    have hle := (List.dropWhile_suffix (fun c => c != quote) (l := text)).length_le
    rw [hdrop, List.length_cons] at hle
    omega

theorem suffix_of_skipOffset? {directive : Directive} {text rest : List Char}
    (h : skipOffset? directive text = some rest) : rest <:+ text := by
  unfold skipOffset? at h
  split at h
  · exact suffix_of_keyword? h
  · simp at h

theorem length_lt_of_value {directive : Directive} {symbols : Symbols} {text rest : List Char}
    {v : UInt32} (h : value directive symbols text = .ok (v, rest)) :
    rest.length < text.length := by
  simp only [value] at h
  split at h
  · next left hleft =>
    simp only [Except.ok.injEq, Prod.mk.injEq] at h
    obtain ⟨-, rfl⟩ := h
    exact (suffix_of_skipChar? hleft).2
  · split at h
    · next left hleft =>
      split at h
      · next result hresult =>
        obtain rfl := Except.ok.inj h
        exact Nat.lt_of_lt_of_le (symbols.offset?_advances hresult).2
          (suffix_of_skipOffset? hleft).length_le
      · simp at h
    · split at h
      · simp at h
      · next w left hnumber =>
        split at h
        · simp only [Except.ok.injEq, Prod.mk.injEq] at h
          obtain ⟨-, rfl⟩ := h
          exact (number?_advances hnumber).2
        · simp at h

/-- An element takes at least one character. -/
theorem length_lt_of_read {directive : Directive} {symbols : Symbols} {text rest : List Char}
    {bytes : List UInt8} (h : read directive symbols text = .ok (bytes, rest)) :
    rest.length < text.length := by
  unfold read at h
  split at h
  · next c tail =>
    split at h
    · exact Nat.lt_succ_of_lt (length_lt_of_quoted h)
    · cases hvalue : value directive symbols (c :: tail) with
      | error e => simp [hvalue, Except.map] at h
      | ok result =>
        obtain ⟨v, left⟩ := result
        simp only [hvalue, Except.map, Except.ok.injEq, Prod.mk.injEq] at h
        obtain ⟨-, rfl⟩ := h
        exact length_lt_of_value hvalue
  · simp at h

set_option linter.unusedVariables false in
/-- The bytes of all elements of a text, in order. -/
def readAll (directive : Directive) (symbols : Symbols) (text : List Char) :
    Except DecodeError (List UInt8) :=
  match hskip : skipCommas text with
  | [] => .ok []
  | c :: tail =>
    match hread : read directive symbols (c :: tail) with
    | .error e => .error e
    | .ok (bytes, rest) =>
      match readAll directive symbols rest with
      | .error e => .error e
      | .ok more => .ok (bytes ++ more)
termination_by text.length
decreasing_by
  have hle := (List.dropWhile_suffix (fun c => isSpace c || c == ',') (l := text)).length_le
  have hlt := length_lt_of_read hread
  rw [← hskip] at hlt
  exact Nat.lt_of_lt_of_le hlt hle

/-- The bytes of the first element come before those of the others. -/
theorem readAll_eq (directive : Directive) (symbols : Symbols) (text : List Char) :
    readAll directive symbols text =
      match skipCommas text with
      | [] => .ok []
      | c :: tail =>
        match read directive symbols (c :: tail) with
        | .error e => .error e
        | .ok (bytes, rest) => (readAll directive symbols rest).map (bytes ++ ·) := by
  rw [readAll]
  split
  · next hskip => rw [hskip]
  · next c tail hskip =>
    simp only [hskip]
    split
    · next e hread => simp only [hread]
    · next bytes rest hread =>
      simp only [hread]
      cases readAll directive symbols rest <;> rfl

end Element

/-! ## Lines -/

/-- A line of a data section. -/
structure Declaration where
  /-- The label.  A line without one goes on with the bytes of the label
  before. -/
  label : Option (List Char)
  /-- The width of the elements. -/
  directive : Directive
  /-- The bytes of all elements, at least one. -/
  bytes : List UInt8
deriving DecidableEq, Repr

namespace Declaration

/-- The word at the front of a text, and the text behind it and its spaces. -/
def word (text : List Char) : List Char × List Char :=
  (text.takeWhile fun c => !isSpace c, skipSpaces (text.dropWhile fun c => !isSpace c))

/-- The label and the directive of a line, and the text of its elements. -/
def head (line : List Char) :
    Except DecodeError (Option (List Char) × Directive × List Char) :=
  let (first, rest) := word line
  match Directive.ofWord? first with
  | some directive => .ok (none, directive, rest)
  | none =>
    let (second, rest) := word rest
    match Directive.ofWord? second with
    | some directive => .ok (some first, directive, rest)
    | none =>
      .error (.invalidData
        s!"unknown directive `{String.ofList second}` for '{String.ofList first}'")

/-- The declaration of a line in normal form. -/
def decode (symbols : Symbols) (line : List Char) : Except DecodeError Declaration := do
  let (label, directive, rest) ← head line
  let bytes ← Element.readAll directive symbols rest
  if bytes = [] then .error (.invalidData "empty declaration")
  else return ⟨label, directive, bytes⟩

end Declaration

end X86Listing
