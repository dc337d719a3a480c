import X86Listing.Json.Basic
import X86Listing.Text.Numeral

/-!
# Reading JSON

`Json.parse?` reads a text as one JSON value with blanks around it.  Of several
members of one name in an object the last one counts.

A reader can be *strict* or not.  A strict reader refuses a text with an escaped
surrogate that has no partner, since such a text has no characters.  A reader
that is not strict puts a replacement character in its place; it serves to pass
over values that nobody looks at.

The readers of nested values take a bound on the number of calls.  Every call
takes a character, so the length of the text is bound enough.
-/

namespace X86Listing.Json

open Text (isHexDigit ofDigits)

/-- The text behind the blanks at its front. -/
def skipBlanks (text : List Char) : List Char :=
  text.dropWhile fun c => c == ' ' || c == '\n' || c == '\t' || c == '\r'

/-! ## Numbers -/

/-- The text behind a run of digits, and the run, which is not empty. -/
def digits? (text : List Char) : Option (List Char × List Char) :=
  let run := text.takeWhile Char.isDigit
  if run = [] then none else some (run, text.dropWhile Char.isDigit)

/-- The whole part of a number, which has no leading zero, and the text behind
it. -/
def whole? (text : List Char) : Option (List Char × List Char) :=
  match text with
  | '0' :: rest =>
    match rest with
    | [] => some (['0'], [])
    | c :: _ => if c.isDigit then none else some (['0'], rest)
  | _ => digits? text

/-- The fraction of a number with its point, and the text behind it. -/
def fraction? (text : List Char) : Option (List Char × List Char) :=
  match text with
  | '.' :: rest => (digits? rest).map fun (run, rest) => ('.' :: run, rest)
  | _ => some ([], text)

/-- The exponent of a number, and the text behind it. -/
def exponent? (text : List Char) : Option (List Char × List Char) :=
  match text with
  | [] => some ([], [])
  | e :: rest =>
    if e = 'e' ∨ e = 'E' then
      match rest with
      | '+' :: rest => (digits? rest).map fun (run, rest) => (e :: '+' :: run, rest)
      | '-' :: rest => (digits? rest).map fun (run, rest) => (e :: '-' :: run, rest)
      | _ => (digits? rest).map fun (run, rest) => (e :: run, rest)
    else
      some ([], text)

/-- A number without a sign: its whole part, what follows it, and the text
behind. -/
def unsigned? (text : List Char) : Option (List Char × List Char × List Char) := do
  let (whole, rest) ← whole? text
  let (fraction, rest) ← fraction? rest
  let (exponent, rest) ← exponent? rest
  return (whole, fraction ++ exponent, rest)

/-- A number. -/
def number? (text : List Char) : Option (Json × List Char) :=
  match text with
  | '-' :: rest =>
    (unsigned? rest).map fun (whole, tail, rest) =>
      (numeral (String.ofList ('-' :: whole ++ tail)), rest)
  | _ =>
    (unsigned? text).map fun (whole, tail, rest) =>
      if tail = [] then (natural (ofDigits 10 whole), rest)
      else (numeral (String.ofList (whole ++ tail)), rest)

/-! ## Texts -/

/-- The value of four hexadecimal digits, and the text behind them. -/
def hexCode? (text : List Char) : Option (Nat × List Char) :=
  let run := text.take 4
  if run.length = 4 ∧ run.all isHexDigit then some (ofDigits 16 run, text.drop 4) else none

/-- Is the number one of a leading surrogate? -/
def isLeading (n : Nat) : Bool :=
  0xd800 ≤ n && n < 0xdc00

/-- Is the number one of a trailing surrogate? -/
def isTrailing (n : Nat) : Bool :=
  0xdc00 ≤ n && n < 0xe000

/-- The character of an escape with a number, and the text behind it.  A leading
surrogate forms one character with the trailing surrogate behind it. -/
def unicode? (strict : Bool) (text : List Char) : Option (Char × List Char) := do
  let (first, rest) ← hexCode? text
  let lone : Option (Char × List Char) :=
    if strict then none else some (Char.ofNat 0xfffd, rest)
  if isTrailing first then
    lone
  else if isLeading first then
    match rest with
    | '\\' :: 'u' :: tail =>
      match hexCode? tail with
      | some (second, behind) =>
        if isTrailing second then
          some (Char.ofNat (0x10000 + (first - 0xd800) * 0x400 + (second - 0xdc00)), behind)
        else lone
      | none => none
    | _ => lone
  else
    some (Char.ofNat first, rest)

/-- The character of an escape, and the text behind it. -/
def escaped? (strict : Bool) (text : List Char) : Option (Char × List Char) :=
  match text with
  | '\x22' :: rest => some ('\x22', rest)
  | '\\' :: rest => some ('\\', rest)
  | '/' :: rest => some ('/', rest)
  | 'b' :: rest => some ('\x08', rest)
  | 'f' :: rest => some ('\x0c', rest)
  | 'n' :: rest => some ('\n', rest)
  | 'r' :: rest => some ('\r', rest)
  | 't' :: rest => some ('\t', rest)
  | 'u' :: rest => unicode? strict rest
  | _ => none

/-- The characters up to the closing quote, and the text behind it.  `before`
holds the characters read so far, the last one first. -/
def characters? (strict : Bool) :
    (bound : Nat) → (before text : List Char) → Option (List Char × List Char)
  | 0, _, _ => none
  | _, _, [] => none
  | bound + 1, before, c :: rest =>
    if c = '\x22' then some (before.reverse, rest)
    else if c = '\\' then
      match escaped? strict rest with
      | none => none
      | some (c, rest) => characters? strict bound (c :: before) rest
    else if c.toNat < 0x20 then none
    else characters? strict bound (c :: before) rest

/-- A text in quotes. -/
def text? (strict : Bool) (text : List Char) : Option (String × List Char) :=
  match text with
  | '\x22' :: rest =>
    (characters? strict (rest.length + 1) [] rest).map fun (cs, rest) => (String.ofList cs, rest)
  | _ => none

/-! ## Values -/

/-- A word that stands for a value. -/
def word? (text : List Char) : Option (Json × List Char) :=
  match text with
  | 'n' :: 'u' :: 'l' :: 'l' :: rest => some (null, rest)
  | 't' :: 'r' :: 'u' :: 'e' :: rest => some (bool true, rest)
  | 'f' :: 'a' :: 'l' :: 's' :: 'e' :: rest => some (bool false, rest)
  | _ => none

/-- A colon with blanks around it. -/
def skipColon? (text : List Char) : Option (List Char) :=
  match skipBlanks text with
  | ':' :: rest => some (skipBlanks rest)
  | _ => none

mutual

/-- A value, and the text behind it. -/
def value? (strict : Bool) : (bound : Nat) → List Char → Option (Json × List Char)
  | 0, _ => none
  | _, [] => none
  | bound + 1, c :: rest =>
    if c = '[' then
      match skipBlanks rest with
      | ']' :: rest => some (array [], rest)
      | rest => (items? strict bound rest).map fun (items, rest) => (array items, rest)
    else if c = '\x7b' then
      match skipBlanks rest with
      | '\x7d' :: rest => some (object [], rest)
      | rest =>
        (members? strict strict bound rest).map fun (members, rest) =>
          (object (lastOfEach members), rest)
    else if c = '\x22' then
      (text? strict (c :: rest)).map fun (s, rest) => (string s, rest)
    else
      (word? (c :: rest)).or (number? (c :: rest))

/-- The items of an array up to its closing bracket, and the text behind it. -/
def items? (strict : Bool) : (bound : Nat) → List Char → Option (List Json × List Char)
  | 0, _ => none
  | bound + 1, text =>
    match value? strict bound text with
    | none => none
    | some (item, rest) =>
      match skipBlanks rest with
      | ']' :: rest => some ([item], rest)
      | ',' :: rest =>
        (items? strict bound (skipBlanks rest)).map fun (items, rest) => (item :: items, rest)
      | _ => none

/-- The members of an object up to its closing brace, and the text behind it. -/
def members? (strictNames strictValues : Bool) :
    (bound : Nat) → List Char → Option (List (String × Json) × List Char)
  | 0, _ => none
  | bound + 1, text =>
    match text? strictNames text with
    | none => none
    | some (name, rest) =>
      match skipColon? rest with
      | none => none
      | some rest =>
        match value? strictValues bound rest with
        | none => none
        | some (value, rest) =>
          match skipBlanks rest with
          | '\x7d' :: rest => some ([(name, value)], rest)
          | ',' :: rest =>
            (members? strictNames strictValues bound (skipBlanks rest)).map
              fun (members, rest) => ((name, value) :: members, rest)
          | _ => none

end

/-- The value that a text is. -/
def parse? (text : String) : Option Json :=
  let cs := skipBlanks text.toList
  match value? true (cs.length + 1) cs with
  | some (json, rest) => if skipBlanks rest = [] then some json else none
  | none => none

end X86Listing.Json
