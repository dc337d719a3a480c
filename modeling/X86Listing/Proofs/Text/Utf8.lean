import Mathlib.Data.Char
import X86Listing.Text.Utf8

/-!
# Characters and their bytes

A character below 128 is one byte, its code (`utf8EncodeChar_of_lt`), and every byte of any
other character is 128 or more (`le_of_mem_utf8EncodeChar`).  So a byte below 128 never
belongs to a longer character.

The order of texts by code point is their order by byte (`compare_utf8Bytes`).  It comes from
the order of two characters with anything behind them (`compare_utf8EncodeChar`).
-/

namespace X86Listing.Text

/-! ## The bytes of one character -/

theorem utf8EncodeChar_of_lt {c : Char} (h : c.toNat < 128) :
    String.utf8EncodeChar c = [UInt8.ofNat c.toNat] := by
  have hle : c.val.toNat ≤ 127 := Nat.le_of_lt_succ h
  simp only [String.utf8EncodeChar, if_pos hle]
  rfl

theorem utf8EncodeChar_ne_nil (c : Char) : String.utf8EncodeChar c ≠ [] := by
  unfold String.utf8EncodeChar
  dsimp only
  split_ifs <;> simp

/-- No byte of a longer character is an ASCII character. -/
theorem le_of_mem_utf8EncodeChar {c : Char} (h : 128 ≤ c.toNat) {byte : UInt8}
    (hbyte : byte ∈ String.utf8EncodeChar c) : 128 ≤ byte := by
  rw [UInt8.le_iff_toNat_le]
  unfold String.utf8EncodeChar at hbyte
  simp only [Char.toNat_val] at hbyte
  split_ifs at hbyte <;> simp only [List.mem_cons, List.not_mem_nil, or_false] at hbyte
  · omega
  all_goals rcases hbyte with rfl | rfl | rfl | rfl <;> simp <;> omega

/-! ## The order of texts -/

/-- The code of a character is bounded. -/
theorem toNat_le_max (c : Char) : c.toNat ≤ 0x10ffff := by
  rcases c.valid with h | ⟨-, h⟩
  · exact Nat.le_of_lt (Nat.lt_trans h (by decide))
  · exact Nat.le_of_lt_succ h

/-- Of two numbers the smaller one has the smaller digit at the first place where they
differ, here in radix 64. -/
theorem lt_of_digits {m n : Nat} (h : m < n) :
    m / 64 < n / 64 ∨ m / 64 = n / 64 ∧ m % 64 < n % 64 := by
  omega

/-- The bytes of two characters differ before either of them ends. -/
theorem compare_utf8EncodeChar {c d : Char} (h : c < d) (xs ys : List UInt8) :
    compare (String.utf8EncodeChar c ++ xs) (String.utf8EncodeChar d ++ ys) = .lt := by
  have hlt : c.toNat < d.toNat := h
  have hmax := toNat_le_max d
  have hfirst := lt_of_digits hlt
  have hsecond := @lt_of_digits (c.toNat / 64) (d.toNat / 64)
  have hthird := @lt_of_digits (c.toNat / 4096) (d.toNat / 4096)
  simp only [Nat.div_div_eq_div_mul, Nat.reduceMul] at hsecond hthird
  unfold String.utf8EncodeChar
  simp only [Char.toNat_val]
  split_ifs <;>
    simp (disch := omega) [List.compare_cons_cons, Ordering.then_eq_lt, Std.compare_eq_lt,
      UInt8.lt_iff_toNat_lt, ← UInt8.toNat_inj, Nat.mod_eq_of_lt] <;> omega

theorem compare_append_left (front a b : List UInt8) :
    compare (front ++ a) (front ++ b) = compare a b := by
  induction front with
  | nil => rfl
  | cons byte front ih =>
    rw [List.cons_append, List.cons_append, List.compare_cons_cons, ih, Std.compare_self]
    rfl

theorem compare_utf8Bytes (a b : List Char) :
    compare (utf8Bytes a) (utf8Bytes b) = compare a b := by
  induction a generalizing b with
  | nil =>
    cases b with
    | nil => rfl
    | cons d b =>
      obtain ⟨byte, bytes, hbytes⟩ := List.exists_cons_of_ne_nil (utf8EncodeChar_ne_nil d)
      rw [utf8Bytes_cons, hbytes]
      rfl
  | cons c a ih =>
    cases b with
    | nil =>
      obtain ⟨byte, bytes, hbytes⟩ := List.exists_cons_of_ne_nil (utf8EncodeChar_ne_nil c)
      rw [utf8Bytes_cons, hbytes]
      rfl
    | cons d b =>
      rw [utf8Bytes_cons, utf8Bytes_cons, List.compare_cons_cons]
      rcases lt_trichotomy c d with hlt | rfl | hlt
      · rw [compare_utf8EncodeChar hlt, compare_lt_iff_lt.2 hlt]
        rfl
      · rw [compare_append_left, ih, Std.ReflOrd.compare_self]
        rfl
      · rw [Std.OrientedCmp.gt_of_lt (compare_utf8EncodeChar hlt _ _), compare_gt_iff_gt.2 hlt]
        rfl

end X86Listing.Text
