import Mathlib
import X86Listing.Proofs.Text.NameTable
import X86Listing.Proofs.Text.Utf8

/-!
# The order of names

Names are compared up to the case of ASCII letters.  The comparison is a total preorder
(`isLE_total`, `isLE_trans`), and two names are equivalent exactly if they agree
character by character up to the case of a letter (`compareIgnoreCase_eq_iff_forall₂`).

It can be made byte by byte: the bytes of the lower-case form are the bytes of the text with
every capital lowered (`utf8Bytes_lower`), because no byte of a longer character is a capital.
-/

namespace X86Listing.Text

/-! ## Letters and their bytes -/

/-- The characters are the same, or one of them is the capital of the other. -/
def SameLetter (c d : Char) : Prop :=
  c = d ∨ (c.isUpper = true ∧ d.toNat = c.toNat + 32) ∨
    (d.isUpper = true ∧ c.toNat = d.toNat + 32)

/-- The byte of the small letter for that of a capital, and any other byte itself. -/
def lowerByte (byte : UInt8) : UInt8 :=
  if 0x41 ≤ byte ∧ byte ≤ 0x5a then byte + 32 else byte

theorem isUpper_iff (c : Char) : c.isUpper = true ↔ 65 ≤ c.toNat ∧ c.toNat ≤ 90 := by
  simp only [Char.isUpper, decide_eq_true_eq, ge_iff_le, UInt32.le_iff_toNat_le, Char.toNat_val]
  rfl

theorem toNat_toLower (c : Char) :
    c.toLower.toNat = if c.isUpper then c.toNat + 32 else c.toNat := by
  by_cases h : c.isUpper = true
  · have hbounds := (isUpper_iff c).1 h
    have hrange : c.val ≥ 'A'.val ∧ c.val ≤ 'Z'.val := by simpa [Char.isUpper] using h
    rw [if_pos h, Char.toLower, dif_pos hrange]
    have hval : (c.val + ('a'.val - 'A'.val)).toNat = (c.toNat + 32) % 2 ^ 32 :=
      UInt32.toNat_add c.val ('a'.val - 'A'.val)
    have hlt : c.toNat + 32 < 2 ^ 32 := by omega
    rwa [Nat.mod_eq_of_lt hlt] at hval
  · have hrange : ¬(c.val ≥ 'A'.val ∧ c.val ≤ 'Z'.val) := by simpa [Char.isUpper] using h
    rw [if_neg h, Char.toLower, dif_neg hrange]

/-- Lowering both characters makes them equal exactly if they are the same letter. -/
theorem toLower_eq_iff {c d : Char} : c.toLower = d.toLower ↔ SameLetter c d := by
  rw [← Char.toNat_inj, toNat_toLower, toNat_toLower, SameLetter, ← Char.toNat_inj]
  simp only [isUpper_iff]
  split_ifs <;> omega

theorem sameLetters_iff_forall₂ {a b : List Char} :
    SameLetters a b ↔ List.Forall₂ SameLetter a b := by
  have hchar : SameLetter = fun c d : Char => c.toLower = d.toLower := by
    funext c d
    exact propext toLower_eq_iff.symm
  show a.map Char.toLower = b.map Char.toLower ↔ _
  rw [hchar, ← List.forall₂_eq_eq_eq, List.forall₂_map_left_iff, List.forall₂_map_right_iff]

/-- A character that is no capital has no capital among its bytes. -/
theorem lowerByte_of_mem_utf8EncodeChar {c : Char} (h : ¬c.isUpper = true) {byte : UInt8}
    (hbyte : byte ∈ String.utf8EncodeChar c) : lowerByte byte = byte := by
  rw [lowerByte, if_neg]
  rw [isUpper_iff] at h
  rw [UInt8.le_iff_toNat_le, UInt8.le_iff_toNat_le]
  rintro ⟨hle, hge⟩
  by_cases hascii : c.toNat < 128
  · rw [utf8EncodeChar_of_lt hascii, List.mem_singleton] at hbyte
    have hcode : byte.toNat = c.toNat % 256 := by rw [hbyte, UInt8.toNat_ofNat']
    have hle : 65 ≤ byte.toNat := hle
    have hge : byte.toNat ≤ 90 := hge
    omega
  · have hbound := le_of_mem_utf8EncodeChar (Nat.le_of_not_lt hascii) hbyte
    exact absurd (Nat.le_trans (UInt8.le_iff_toNat_le.1 hbound) hge) (by decide)

theorem map_lowerByte_utf8EncodeChar (c : Char) :
    (String.utf8EncodeChar c).map lowerByte = String.utf8EncodeChar c.toLower := by
  have hlower := toNat_toLower c
  by_cases hcapital : c.isUpper = true
  · have hbounds := (isUpper_iff c).1 hcapital
    rw [if_pos hcapital] at hlower
    rw [utf8EncodeChar_of_lt (by omega), utf8EncodeChar_of_lt (by omega), hlower,
      List.map_singleton, List.singleton_inj]
    have hcode : (UInt8.ofNat c.toNat).toNat = c.toNat :=
      Nat.mod_eq_of_lt (by omega)
    rw [lowerByte, if_pos, UInt8.ofNat_add]
    · rfl
    · rw [UInt8.le_iff_toNat_le, UInt8.le_iff_toNat_le, hcode]
      exact hbounds
  · have hsame : c.toLower = c := Char.toNat_inj.1 (by rw [hlower, if_neg hcapital])
    rw [hsame]
    exact (List.map_congr_left fun byte => lowerByte_of_mem_utf8EncodeChar hcapital).trans
      (List.map_id _)

theorem utf8Bytes_lower (text : List Char) :
    utf8Bytes (lower text) = (utf8Bytes text).map lowerByte := by
  induction text with
  | nil => rfl
  | cons c text ih =>
    rw [lower_cons, utf8Bytes_cons, utf8Bytes_cons, ih, List.map_append,
      map_lowerByte_utf8EncodeChar]

/-! ## The comparison -/

/-- Names are compared by their bytes with the capitals lowered. -/
theorem compareIgnoreCase_eq_compare_bytes (a b : List Char) :
    compareIgnoreCase a b =
      compare ((utf8Bytes a).map lowerByte) ((utf8Bytes b).map lowerByte) := by
  rw [← utf8Bytes_lower, ← utf8Bytes_lower, compare_utf8Bytes]
  rfl

theorem compareIgnoreCase_eq_iff_forall₂ {a b : List Char} :
    compareIgnoreCase a b = .eq ↔ List.Forall₂ SameLetter a b :=
  compareIgnoreCase_eq_iff.trans sameLetters_iff_forall₂

theorem compareIgnoreCase_swap (a b : List Char) :
    compareIgnoreCase a b = (compareIgnoreCase b a).swap :=
  Std.OrientedOrd.eq_swap

theorem isLE_total (a b : List Char) :
    (compareIgnoreCase a b).isLE = true ∨ (compareIgnoreCase b a).isLE = true := by
  rw [compareIgnoreCase_swap b a]
  cases compareIgnoreCase a b <;> simp

theorem isLE_trans {a b c : List Char} (h : (compareIgnoreCase a b).isLE = true)
    (k : (compareIgnoreCase b c).isLE = true) : (compareIgnoreCase a c).isLE = true :=
  Std.TransOrd.isLE_trans h k

end X86Listing.Text
