/-!
# Numerals

Listings and messages write numbers in two ways: in decimal, and in lower-case
hexadecimal behind `0x` without leading zeros.  `ofDigits` is the value of a
run of digits in either radix; it is the reading beside both writings.
-/

namespace X86Listing.Text

/-- A number in hexadecimal, such as `0x1f`. -/
def hex (n : Nat) : String :=
  "0x" ++ String.ofList (Nat.toDigits 16 n)

/-- A hexadecimal digit in either case. -/
def isHexDigit (c : Char) : Bool :=
  c.isDigit || ('a' ≤ c && c ≤ 'f') || ('A' ≤ c && c ≤ 'F')

/-- The value of a hexadecimal digit, and zero for any other character. -/
def digitValue (c : Char) : Nat :=
  if c.isDigit then c.toNat - '0'.toNat
  else if 'a' ≤ c ∧ c ≤ 'f' then c.toNat - 'a'.toNat + 10
  else if 'A' ≤ c ∧ c ≤ 'F' then c.toNat - 'A'.toNat + 10
  else 0

/-- The value of a run of digits, most significant digit first. -/
def ofDigits (radix : Nat) (digits : List Char) : Nat :=
  digits.foldl (fun value c => radix * value + digitValue c) 0

@[simp]
theorem ofDigits_nil (radix : Nat) : ofDigits radix [] = 0 := rfl

/-- One more digit multiplies the value by the radix. -/
theorem ofDigits_concat (radix : Nat) (digits : List Char) (c : Char) :
    ofDigits radix (digits ++ [c]) = radix * ofDigits radix digits + digitValue c := by
  simp [ofDigits]

end X86Listing.Text
