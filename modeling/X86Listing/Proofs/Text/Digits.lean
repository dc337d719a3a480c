import X86Listing.Proofs.Text.Order
import X86Listing.Text.Numeral

/-!
# Digits and their values

The digits that a number is written with have that number as their value, in every radix up
to 16 (`ofDigits_toDigits`).  Zeros in front (`ofDigits_zeros`) and the case of letters
(`ofDigits_lower`) do not change the value.
-/

namespace X86Listing.Text

/-! ## Single digits -/

theorem digitValue_digitChar {d : Nat} (h : d < 16) : digitValue d.digitChar = d := by
  have hall : ∀ d : Fin 16, digitValue (Nat.digitChar d) = d := by decide
  exact hall ⟨d, h⟩

theorem isHexDigit_digitChar {d : Nat} (h : d < 16) : isHexDigit d.digitChar = true := by
  have hall : ∀ d : Fin 16, isHexDigit (Nat.digitChar d) = true := by decide
  exact hall ⟨d, h⟩

theorem isHexDigit_iff (c : Char) : isHexDigit c = true ↔
    (48 ≤ c.toNat ∧ c.toNat ≤ 57) ∨ (97 ≤ c.toNat ∧ c.toNat ≤ 102) ∨
      (65 ≤ c.toNat ∧ c.toNat ≤ 70) := by
  simp only [isHexDigit, Char.isDigit, Char.le_def, UInt32.le_iff_toNat_le, Bool.or_eq_true,
    Bool.and_eq_true, decide_eq_true_eq, ge_iff_le, or_assoc]
  rfl

theorem digitValue_eq (c : Char) : digitValue c =
    if 48 ≤ c.toNat ∧ c.toNat ≤ 57 then c.toNat - 48
    else if 97 ≤ c.toNat ∧ c.toNat ≤ 102 then c.toNat - 97 + 10
    else if 65 ≤ c.toNat ∧ c.toNat ≤ 70 then c.toNat - 65 + 10
    else 0 := by
  simp only [digitValue, Char.isDigit, Char.le_def, UInt32.le_iff_toNat_le, Bool.and_eq_true,
    decide_eq_true_eq, ge_iff_le]
  rfl

/-- A digit has the same value in both cases. -/
theorem digitValue_toLower {c : Char} (h : isHexDigit c.toLower = true) :
    isHexDigit c = true ∧ digitValue c.toLower = digitValue c := by
  rw [isHexDigit_iff, toNat_toLower] at h
  rw [isHexDigit_iff, digitValue_eq, digitValue_eq, toNat_toLower]
  simp only [isUpper_iff] at h ⊢
  split_ifs at h ⊢ <;> omega

/-! ## Runs of digits -/

theorem ofDigits_zeros (radix zeros : Nat) (digits : List Char) :
    ofDigits radix (List.replicate zeros '0' ++ digits) = ofDigits radix digits := by
  induction zeros with
  | zero => rfl
  | succ zeros ih => simpa [List.replicate_succ, ofDigits, digitValue] using ih

theorem ofDigits_lower (radix : Nat) {digits : List Char}
    (h : ∀ c ∈ lower digits, isHexDigit c = true) :
    ofDigits radix (lower digits) = ofDigits radix digits := by
  unfold ofDigits lower
  rw [List.foldl_map]
  refine List.foldl_ext _ _ 0 fun value c hc => ?_
  rw [(digitValue_toLower (h _ (List.mem_map_of_mem hc))).2]

/-! ## The digits of a number -/

section ToDigits

variable {radix : Nat} (hone : 1 < radix) (hmax : radix ≤ 16)
include hone hmax

theorem isHexDigit_of_mem_toDigits {n : Nat} {c : Char} (h : c ∈ Nat.toDigits radix n) :
    isHexDigit c = true := by
  induction n using Nat.strong_induction_on with
  | _ n ih =>
    rw [Nat.toDigits_eq_if hone] at h
    split at h
    · next hlt =>
      rw [List.mem_singleton] at h
      rw [h]
      exact isHexDigit_digitChar (by omega)
    · next hge =>
      rcases List.mem_append.1 h with h | h
      · exact ih (n / radix) (Nat.div_lt_self (by omega) hone) h
      · rw [List.mem_singleton] at h
        rw [h]
        exact isHexDigit_digitChar (Nat.lt_of_lt_of_le (Nat.mod_lt n (by omega)) hmax)

/-- A number is the value of its digits. -/
theorem ofDigits_toDigits (n : Nat) : ofDigits radix (Nat.toDigits radix n) = n := by
  induction n using Nat.strong_induction_on with
  | _ n ih =>
    rw [Nat.toDigits_eq_if hone]
    split
    · next hlt => simpa [ofDigits] using digitValue_digitChar (d := n) (by omega)
    · next hge =>
      rw [ofDigits_concat, ih (n / radix) (Nat.div_lt_self (by omega) hone),
        digitValue_digitChar (Nat.lt_of_lt_of_le (Nat.mod_lt n (by omega)) hmax),
        Nat.div_add_mod]

end ToDigits

end X86Listing.Text
