/-!
# Blanks

Two notions of blank are in use.  A raw source line may hold any blank of the
Unicode property `White_Space`, and `isBlank` is that property.  Operands are
read from normalized lines, where only the five blanks of `isSpace` separate
tokens.
-/

namespace X86Listing.Text

/-- The Unicode property `White_Space`. -/
def isBlank (c : Char) : Bool :=
  let n := c.toNat
  (0x09 ≤ n && n ≤ 0x0d) || n == 0x20 || n == 0x85 || n == 0xa0 || n == 0x1680 ||
    (0x2000 ≤ n && n ≤ 0x200a) || n == 0x2028 || n == 0x2029 || n == 0x202f ||
    n == 0x205f || n == 0x3000

/-- A blank between the tokens of an operand list: space, tab, line feed, form
feed or carriage return.  The vertical tab is not among them. -/
def isSpace (c : Char) : Bool :=
  c == ' ' || c == '\t' || c == '\n' || c == '\x0c' || c == '\r'

/-- Every separator of tokens is a blank. -/
theorem isBlank_of_isSpace {c : Char} (h : isSpace c = true) : isBlank c = true := by
  simp only [isSpace, Bool.or_eq_true, beq_iff_eq] at h
  rcases h with (((rfl | rfl) | rfl) | rfl) | rfl <;> decide

end X86Listing.Text
