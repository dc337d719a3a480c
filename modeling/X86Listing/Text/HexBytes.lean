/-!
# Bytes as hexadecimal text

A list of bytes is shown as two lower-case hexadecimal digits for each byte, with
nothing between them.  `ofHexBytes` reads such a text back and takes digits in
either case.
-/

namespace X86Listing.Text

/-- The two digits of each byte. -/
def hexBytes (bytes : List UInt8) : String :=
  String.ofList (bytes.flatMap fun byte =>
    [Nat.digitChar (byte.toNat / 16), Nat.digitChar (byte.toNat % 16)])

/-- The value of a hexadecimal digit. -/
def nibble? (c : Char) : Option Nat :=
  if c.isDigit then some (c.toNat - '0'.toNat)
  else if 'a' ≤ c ∧ c ≤ 'f' then some (c.toNat - 'a'.toNat + 10)
  else if 'A' ≤ c ∧ c ≤ 'F' then some (c.toNat - 'A'.toNat + 10)
  else none

/-- The bytes of the pairs of digits in a text, up to the first pair that is
none. -/
def ofHexDigits : List Char → List UInt8
  | high :: low :: rest =>
    match nibble? high, nibble? low with
    | some high, some low => UInt8.ofNat (16 * high + low) :: ofHexDigits rest
    | _, _ => []
  | _ => []

/-- The bytes of a hexadecimal text. -/
def ofHexBytes (text : String) : List UInt8 :=
  ofHexDigits text.toList

end X86Listing.Text
