import X86Listing.Power
import X86Listing.Register.Basic
import X86Listing.Text.Blank
import X86Listing.Text.NameTable
import X86Listing.Text.Numeral

/-!
# Tokens of an operand list

A `Reader` takes a token from the front of a text, together with the spaces
behind it, and answers what the token means and the text that is left.  It
answers `none` if the text does not start with such a token, so alternatives are
tried one after another on the same text.

* `mnemonic?`, `identifier?` and `segment?` read names.
* `register?` reads one of the twenty registers.
* `number?` reads a numeral: an optional minus sign, digits, and an `h` behind
  hexadecimal digits.
* `keyword?` reads a given word that has to be followed by a space.
-/

namespace X86Listing

open Text (isSpace isHexDigit ofDigits SameLetters findIgnoreCase?)

/-- A function that takes a token from the front of a text. -/
abbrev Reader (α : Type) := List Char → Option (α × List Char)

/-! ## Characters and runs -/

/-- Can an identifier start with the character? -/
def startsIdentifier (c : Char) : Bool :=
  c.isAlpha || c == '_'

/-- Can an identifier go on with the character? -/
def continuesIdentifier (c : Char) : Bool :=
  c.isAlphanum || c == '_'

/-- Does the text start with a character of the class? -/
def startsWith (isMember : Char → Bool) : List Char → Bool
  | [] => false
  | c :: _ => isMember c

/-- The text behind the spaces at its front. -/
def skipSpaces (text : List Char) : List Char :=
  text.dropWhile isSpace

/-- The text behind the spaces and commas at its front. -/
def skipCommas (text : List Char) : List Char :=
  text.dropWhile fun c => isSpace c || c == ','

/-- The text behind a character, if it starts with that character. -/
def skipChar? (c : Char) : List Char → Option (List Char)
  | [] => none
  | first :: rest => if first = c then some rest else none

/-- The text behind a word, if it starts with that word up to letter case. -/
def skipWord? (word text : List Char) : Option (List Char) :=
  if SameLetters (text.take word.length) word then some (text.drop word.length) else none

/-- The text behind a word and the spaces that have to follow it. -/
def keyword? (word text : List Char) : Option (List Char) :=
  match skipWord? word text with
  | none => none
  | some rest => if startsWith isSpace rest then some (skipSpaces rest) else none

/-! ## Names -/

/-- A mnemonic: letters up to a space or the end of the text. -/
def mnemonic? : Reader (List Char) := fun text =>
  let name := text.takeWhile Char.isAlpha
  let rest := text.dropWhile Char.isAlpha
  if name = [] then none
  else if rest = [] ∨ startsWith isSpace rest then some (name, skipSpaces rest)
  else none

/-- An identifier: a letter or `_`, then letters, digits and `_`. -/
def identifier? : Reader (List Char) := fun text =>
  if startsWith startsIdentifier text then
    some (text.takeWhile continuesIdentifier, skipSpaces (text.dropWhile continuesIdentifier))
  else
    none

/-- A segment name: letters with a colon behind them. -/
def segment? : Reader (List Char) := fun text =>
  let name := text.takeWhile Char.isAlpha
  if name = [] then none
  else
    match skipChar? ':' (text.dropWhile Char.isAlpha) with
    | none => none
    | some rest => some (name, skipSpaces rest)

/-- A register that a listing can name. -/
def register? : Reader Reg := fun text =>
  let name := text.takeWhile Char.isAlpha
  let rest := text.dropWhile Char.isAlpha
  if name = [] ∨ startsWith continuesIdentifier rest then none
  else
    match findIgnoreCase? Reg.spellings name with
    | none => none
    | some reg => some (reg, skipSpaces rest)

/-! ## Numbers -/

/-- The digits of a numeral stand for a number below `2 ^ 32`.  Without the
hexadecimal mark they have to be decimal digits. -/
def numeral? (marked : Bool) (digits : List Char) : Option UInt32 :=
  if digits = [] ∨ !marked ∧ !digits.all Char.isDigit then none
  else
    let value := ofDigits (if marked then 16 else 10) digits
    if value < 2 ^ 32 then some (UInt32.ofNat value) else none

/-- The text behind a minus sign, and whether there was one. -/
def skipSign (text : List Char) : Bool × List Char :=
  match skipChar? '-' text with
  | some rest => (true, rest)
  | none => (false, text)

/-- The text behind a hexadecimal mark, and whether there was one. -/
def skipMark (text : List Char) : Bool × List Char :=
  match text with
  | 'h' :: rest => (true, rest)
  | 'H' :: rest => (true, rest)
  | _ => (false, text)

/-- A numeral that no identifier follows at once.  A minus sign negates the word
modulo `2 ^ 32`. -/
def number? : Reader UInt32 := fun text =>
  let (negative, unsigned) := skipSign text
  let digits := unsigned.takeWhile isHexDigit
  let (marked, rest) := skipMark (unsigned.dropWhile isHexDigit)
  if startsWith startsIdentifier rest then none
  else
    match numeral? marked digits with
    | none => none
    | some value => some (if negative then -value else value, skipSpaces rest)

end X86Listing
