import X86Listing.Declaration
import X86Listing.Proofs.Operand.Numeral

/-!
# Elements of a declaration and their bytes

An element is quoted text, a number, the mark `?`, or an address.  `Item` is an element apart
from the ways to spell it, and `Item.bytes` are the bytes that it stands for: those of a text in
UTF-8, and the lowest ones of an integer in two's complement.

A number is read as a word, and it is the word that has to fit the width of the element.

* `Directive.encode_eq`: a word is stored like every integer that agrees with it modulo the
  width.
* `Directive.Takes.exists_narrow?` and `Directive.takes_of_narrow?`: the integers whose words an
  element takes.  They are not only those in range.
-/

namespace X86Listing

open Text (utf8Bytes)

/-! ## Definitions -/

/-- The lowest bytes of an integer in two's complement, lowest first. -/
def twosComplement : (count : Nat) → Int → List UInt8
  | 0, _ => []
  | count + 1, z => UInt8.ofInt z :: twosComplement count (z / 256)

/-- The integers that an element can hold, as an unsigned or as a signed number. -/
def Directive.Holds (directive : Directive) (z : Int) : Prop :=
  -2 ^ (directive.bits - 1) ≤ z ∧ z < 2 ^ directive.bits

instance (directive : Directive) (z : Int) : Decidable (directive.Holds z) :=
  inferInstanceAs (Decidable (_ ∧ _))

/-- A number of less than `2 ^ 32`, up to its sign, that is in range or becomes so when
`2 ^ 32` is added or subtracted. -/
structure Directive.Takes (directive : Directive) (z : Int) : Prop where
  natAbs_lt : z.natAbs < 2 ^ 32
  holds : directive.Holds z ∨ directive.Holds (z + 2 ^ 32) ∨ directive.Holds (z - 2 ^ 32)

/-- An element of a declaration. -/
inductive Item where
  /-- Text between two quotes. -/
  | quoted (quote : Char) (text : List Char)
  | number (numeral : Numeral)
  /-- The mark `?`. -/
  | unknown
  /-- The address of a label, behind the word `offset`. -/
  | offset (address : UInt32)

/-- The bytes that an element stands for. -/
def Item.bytes (directive : Directive) : Item → List UInt8
  | quoted _ text => utf8Bytes text
  | number numeral => twosComplement (directive.bits / 8) numeral.value
  | unknown => twosComplement (directive.bits / 8) 0
  | offset address => twosComplement (directive.bits / 8) address.toNat

/-! ## Words and integers -/

theorem toNat_uint8_ofInt (z : Int) : ((UInt8.ofInt z).toNat : Int) = z % 256 := by
  rw [UInt8.ofInt, UInt8.toNat_ofNat']
  omega

namespace Directive

variable {directive : Directive} {v w : UInt32} {z : Int}

theorem encode_eq (h : (w.toNat : Int) % 2 ^ directive.bits = z % 2 ^ directive.bits) :
    directive.encode w = twosComplement (directive.bits / 8) z := by
  have hbyte (i : Nat) (y : Int) (hy : (w.toNat / 256 ^ i : Nat) % 256 = y % 256) :
      wordByte w i = UInt8.ofInt y := by
    apply UInt8.toNat_inj.1
    have hofInt := toNat_uint8_ofInt y
    have hwordByte := toNat_wordByte w i
    omega
  cases directive with
  | byte =>
    have h0 := hbyte 0 z (by simp only [bits] at h; omega)
    simp [encode, bytesOfWord, bits, twosComplement, h0]
  | word =>
    have h0 := hbyte 0 z (by simp only [bits] at h; omega)
    have h1 := hbyte 1 (z / 256) (by simp only [bits] at h; omega)
    simp [encode, bytesOfWord, bits, twosComplement, h0, h1]
  | dword =>
    have h0 := hbyte 0 z (by simp only [bits] at h; omega)
    have h1 := hbyte 1 (z / 256) (by simp only [bits] at h; omega)
    have h2 := hbyte 2 (z / 256 / 256) (by simp only [bits] at h; omega)
    have h3 := hbyte 3 (z / 256 / 256 / 256) (by simp only [bits] at h; omega)
    simp [encode, bytesOfWord, bits, twosComplement, h0, h1, h2, h3]

/-- The words that are taken are small, or they are words of small negative numbers. -/
theorem narrow?_eq (directive : Directive) (v : UInt32) :
    directive.narrow? v =
      if v.toNat < 2 ^ directive.bits ∨ 2 ^ 32 - 2 ^ (directive.bits - 1) ≤ v.toNat then
        some (UInt32.ofNat (v.toNat % 2 ^ directive.bits))
      else none := by
  have hhalf : 2 ^ directive.bits / 2 = 2 ^ (directive.bits - 1) := by cases directive <;> rfl
  simp only [narrow?, hhalf]
  by_cases hsmall : v.toNat < 2 ^ directive.bits
  · rw [if_pos hsmall, if_pos (Or.inl hsmall), Nat.mod_eq_of_lt hsmall, UInt32.ofNat_toNat]
  · simp only [hsmall, if_false, false_or]

/-- The low bits of the word of an integer are those of the integer. -/
theorem toNat_ofNat_mod (hv : (v.toNat : Int) = z % 2 ^ 32) :
    ((UInt32.ofNat (v.toNat % 2 ^ directive.bits)).toNat : Int) % 2 ^ directive.bits =
      z % 2 ^ directive.bits := by
  rw [UInt32.toNat_ofNat']
  cases directive <;> simp only [bits] <;> omega

theorem Holds.takes (h : directive.Holds z) : directive.Takes z := by
  refine ⟨?_, Or.inl h⟩
  obtain ⟨hlow, hhigh⟩ := h
  cases directive <;> simp only [bits] at hlow hhigh <;> omega

/-- An integer is taken if its word is, and the word agrees with it. -/
theorem Takes.exists_narrow? (h : directive.Takes z) (hv : (v.toNat : Int) = z % 2 ^ 32) :
    ∃ w, directive.narrow? v = some w ∧
      (w.toNat : Int) % 2 ^ directive.bits = z % 2 ^ directive.bits := by
  obtain ⟨habs, hholds⟩ := h
  refine ⟨_, ?_, toNat_ofNat_mod hv⟩
  rw [narrow?_eq, if_pos]
  simp only [Holds] at hholds
  cases directive <;> simp only [bits] at hholds ⊢ <;> omega

theorem takes_of_narrow? (hv : (v.toNat : Int) = z % 2 ^ 32) (habs : z.natAbs < 2 ^ 32)
    (h : directive.narrow? v = some w) : directive.Takes z := by
  refine ⟨habs, ?_⟩
  rw [narrow?_eq] at h
  split at h
  · next hfits =>
    simp only [Holds]
    cases directive <;> simp only [bits] at hfits ⊢ <;> omega
  · cases h

end Directive

end X86Listing
