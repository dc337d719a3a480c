import X86Listing.Operand.Symbols
import X86Listing.Text.Utf8

/-!
# A byte position in a line

A `Cursor` is a place in a line of text, given by the number of bytes before it.
It may stand between the bytes of one character; then `split` holds the bytes of
that character that are still ahead.  No token starts inside a character, so a
reader fails there.

* `peekAt`, `bump` and `eat` look at single bytes.
* `takeWhile` passes over bytes of a class.  Text that is cut inside a character
  is not shown, neither as the text that was passed nor as the text ahead.
* `read` applies a reader of tokens.
-/

namespace X86Listing

open Text (utf8Bytes)

/-- A byte position in a line of text. -/
structure Cursor where
  /-- The number of bytes passed. -/
  position : Nat
  /-- The bytes ahead that belong to a character whose first byte is passed. -/
  split : List UInt8
  /-- The characters ahead. -/
  ahead : List Char
deriving DecidableEq, Repr

namespace Cursor

/-- The cursor at the start of a line. -/
def start (line : List Char) : Cursor :=
  ⟨0, [], line⟩

/-- The bytes ahead. -/
def bytes (cursor : Cursor) : List UInt8 :=
  cursor.split ++ utf8Bytes cursor.ahead

/-- Is nothing ahead? -/
def atEnd (cursor : Cursor) : Bool :=
  cursor.bytes.isEmpty

/-- The text ahead, or nothing inside a character. -/
def rest (cursor : Cursor) : List Char :=
  if cursor.split = [] then cursor.ahead else []

/-- The byte that is `offset` bytes ahead. -/
def peekAt (cursor : Cursor) (offset : Nat) : Option UInt8 :=
  cursor.bytes[offset]?

/-- The cursor behind the next byte. -/
def bump (cursor : Cursor) : Cursor :=
  match cursor.split, cursor.ahead with
  | _ :: split, ahead => ⟨cursor.position + 1, split, ahead⟩
  | [], c :: ahead => ⟨cursor.position + 1, (String.utf8EncodeChar c).drop 1, ahead⟩
  | [], [] => cursor

/-- The cursor behind a byte, if that byte is next. -/
def eat? (cursor : Cursor) (byte : UInt8) : Option Cursor :=
  if cursor.peekAt 0 = some byte then some cursor.bump else none

/-- The cursor at the end of a text, given the characters that are left of it. -/
def advance (cursor : Cursor) (left : List Char) : Cursor :=
  let taken := cursor.ahead.take (cursor.ahead.length - left.length)
  ⟨cursor.position + (utf8Bytes taken).length, [], left⟩

/-- The answer of a reader and the cursor behind the token, if the cursor stands
before one. -/
def read {α : Type} (cursor : Cursor) (reader : Reader α) : Option (α × Cursor) :=
  if cursor.split = [] then
    (reader cursor.ahead).map fun (a, left) => (a, cursor.advance left)
  else
    none

/-- The cursor behind a word, if the text ahead starts with it in either case.
The empty word is everywhere. -/
def eatWord? (cursor : Cursor) (word : List Char) : Option Cursor :=
  if word = [] then some cursor
  else if cursor.split = [] then (skipWord? word cursor.ahead).map cursor.advance
  else none

/-- The cursor behind a word and the spaces that have to follow it. -/
def eatKeyword? (cursor : Cursor) (word : List Char) : Option Cursor :=
  if cursor.split = [] then (keyword? word cursor.ahead).map cursor.advance else none

/-- The cursor behind the bytes of a class, `bound` bytes at most. -/
def skipWhile (isMember : UInt8 → Bool) : (bound : Nat) → Cursor → Cursor
  | 0, cursor => cursor
  | bound + 1, cursor =>
    match cursor.peekAt 0 with
    | some byte => if isMember byte then skipWhile isMember bound cursor.bump else cursor
    | none => cursor

/-- The text of the bytes of a class ahead, and the cursor behind them. -/
def takeWhile (cursor : Cursor) (isMember : UInt8 → Bool) : List Char × Cursor :=
  let behind := skipWhile isMember cursor.bytes.length cursor
  let text :=
    if cursor.split = [] ∧ behind.split = [] then
      cursor.ahead.take (cursor.ahead.length - behind.ahead.length)
    else
      []
  (text, behind)

/-- Is the byte one of a token separator? -/
def isSpaceByte (byte : UInt8) : Bool :=
  byte == 0x20 || byte == 0x09 || byte == 0x0a || byte == 0x0c || byte == 0x0d

/-- The cursor behind spaces and the bytes of a list. -/
def skipSeparators (cursor : Cursor) (separators : List UInt8) : Cursor :=
  (cursor.takeWhile fun byte => isSpaceByte byte || separators.contains byte).2

end Cursor

end X86Listing
