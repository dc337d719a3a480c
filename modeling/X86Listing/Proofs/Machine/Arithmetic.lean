import X86Listing.Machine.Arithmetic

/-!
# The operations as arithmetic on whole numbers

* `Condition.Relates` is the relation of two words that a condition asks for, and
  `holds_compareFlags` says that the jump behind their comparison is taken if they are so related.
* `toNat_doubleShift` says that `shrd` is the low word of a pair shifted right, for every
  count.  `pair_shiftRight` adds the high word, and `pair_shiftRight_of_le` is a pair
  shifted by so much that only its high word counts.
-/

namespace X86Listing

/-! ## Comparisons -/

namespace Condition

/-- The relation of two words that a condition asks for, behind their comparison.  Words are
compared as unsigned numbers. -/
def Relates : Condition → UInt32 → UInt32 → Prop
  | always, _, _ => True
  | zero, a, b => a = b
  | notZero, a, b => a ≠ b
  | notBelow, a, b => b ≤ a
  | belowOrEqual, a, b => a ≤ b
  | above, a, b => b < a

instance : (condition : Condition) → (a b : UInt32) → Decidable (condition.Relates a b)
  | always, _, _ => inferInstanceAs (Decidable True)
  | zero, a, b => inferInstanceAs (Decidable (a = b))
  | notZero, a, b => inferInstanceAs (Decidable (a ≠ b))
  | notBelow, a, b => inferInstanceAs (Decidable (b ≤ a))
  | belowOrEqual, a, b => inferInstanceAs (Decidable (a ≤ b))
  | above, a, b => inferInstanceAs (Decidable (b < a))

end Condition

/-- Behind a comparison, a condition is met if the two words are related as it asks. -/
theorem holds_compareFlags (condition : Condition) (a b : UInt32) :
    condition.holds (compareFlags a b) = decide (condition.Relates a b) := by
  rw [Bool.eq_iff_iff, decide_eq_true_iff]
  unfold compareFlags
  split
  · next heq =>
    subst heq
    cases condition with
    | always | zero | notBelow | belowOrEqual =>
      exact iff_of_true rfl (by simp [Condition.Relates])
    | notZero | above => exact iff_of_false (by decide) (by simp [Condition.Relates])
  · next hne =>
    split
    · next hlt =>
      have hle : a ≤ b := UInt32.le_of_lt hlt
      cases condition with
      | always => exact iff_of_true rfl trivial
      | notZero => exact iff_of_true rfl hne
      | belowOrEqual => exact iff_of_true rfl hle
      | zero => exact iff_of_false (by decide) hne
      | notBelow => exact iff_of_false (by decide) (UInt32.not_le.2 hlt)
      | above => exact iff_of_false (by decide) (UInt32.not_lt.2 hle)
    · next hge =>
      have hle : b ≤ a := UInt32.not_lt.1 hge
      have hlt : b < a := UInt32.lt_of_le_of_ne hle (Ne.symm hne)
      cases condition with
      | always => exact iff_of_true rfl trivial
      | notZero => exact iff_of_true rfl hne
      | notBelow => exact iff_of_true rfl hle
      | above => exact iff_of_true rfl hlt
      | zero => exact iff_of_false (by decide) hne
      | belowOrEqual => exact iff_of_false (by decide) (UInt32.not_le.2 hlt)

/-! ## Shifts -/

/-- A shift takes the five low bits of its count. -/
theorem toNat_and_31 (count : UInt32) : (count &&& 31).toNat = count.toNat % 32 := by
  rw [UInt32.toNat_and]
  exact Nat.and_two_pow_sub_one_eq_mod count.toNat 5

theorem toNat_shiftRight_and_31 (word count : UInt32) :
    (word >>> (count &&& 31)).toNat = word.toNat / 2 ^ (count.toNat % 32) := by
  rw [UInt32.toNat_shiftRight, toNat_and_31, Nat.mod_mod, Nat.shiftRight_eq_div_pow]

/-- The low word of `high:low` shifted right. -/
theorem toNat_doubleShift (low high count : UInt32) :
    (doubleShift low high count).toNat =
      (2 ^ 32 * high.toNat + low.toNat) / 2 ^ (count.toNat % 32) % 2 ^ 32 := by
  have hlow := low.toNat_lt
  have hcount := toNat_and_31 count
  unfold doubleShift
  simp only
  by_cases hzero : count &&& 31 = 0
  · have hk : count.toNat % 32 = 0 := by
      rw [← hcount, hzero]
      rfl
    rw [if_pos hzero, hk, Nat.pow_zero, Nat.div_one, Nat.mul_add_mod, Nat.mod_eq_of_lt hlow]
  · rw [if_neg hzero]
    generalize hk : count.toNat % 32 = k at hcount
    have hpos : k ≠ 0 := by
      rintro rfl
      exact hzero (UInt32.toNat_inj.1 hcount)
    have hlt : k < 32 := by omega
    have hsub : (32 - (count &&& 31)).toNat = 32 - k := by
      have hle : count &&& 31 ≤ 32 := by
        rw [UInt32.le_iff_toNat_le, hcount]
        exact Nat.le_of_lt hlt
      rw [UInt32.toNat_sub_of_le _ _ hle, hcount]
      rfl
    have hpow : 2 ^ 32 = 2 ^ (32 - k) * 2 ^ k := by
      rw [← Nat.pow_add, Nat.sub_add_cancel (Nat.le_of_lt hlt)]
    -- The part of the low word that stays, and the part of the high word that comes in.
    have hquotient : low.toNat / 2 ^ k < 2 ^ (32 - k) := by
      rw [Nat.div_lt_iff_lt_mul (Nat.two_pow_pos k), ← hpow]
      exact hlow
    have hshifted :
        (high <<< (32 - (count &&& 31))).toNat = 2 ^ (32 - k) * (high.toNat % 2 ^ k) := by
      rw [UInt32.toNat_shiftLeft, hsub, Nat.mod_eq_of_lt (by omega : 32 - k < 32),
        Nat.shiftLeft_eq, Nat.mul_comm high.toNat, hpow, Nat.mul_mod_mul_left]
    have hpair : (2 ^ 32 * high.toNat + low.toNat) / 2 ^ k =
        2 ^ (32 - k) * high.toNat + low.toNat / 2 ^ k := by
      rw [hpow, Nat.mul_comm (2 ^ (32 - k)), Nat.mul_assoc, Nat.mul_add_div (Nat.two_pow_pos k)]
    rw [UInt32.toNat_or, UInt32.toNat_shiftRight, hcount, Nat.mod_eq_of_lt hlt,
      Nat.shiftRight_eq_div_pow, hshifted, Nat.or_comm,
      ← Nat.two_pow_add_eq_or_of_lt hquotient, hpair, hpow, Nat.mod_mul,
      Nat.mul_add_mod, Nat.mod_eq_of_lt hquotient, Nat.mul_add_div (Nat.two_pow_pos _),
      Nat.div_eq_of_lt hquotient, Nat.add_zero, Nat.add_comm]

/-- The high word of a pair. -/
theorem pair_div (low high : UInt32) :
    (2 ^ 32 * high.toNat + low.toNat) / 2 ^ 32 = high.toNat := by
  rw [Nat.mul_add_div (by decide), Nat.div_eq_of_lt low.toNat_lt, Nat.add_zero]

/-- A pair shifted right by a word or more is its high word shifted right. -/
theorem pair_shiftRight_of_le (low high : UInt32) {count : Nat} (h : 32 ≤ count) :
    (2 ^ 32 * high.toNat + low.toNat) >>> count = high.toNat / 2 ^ (count - 32) := by
  obtain ⟨k, rfl⟩ := Nat.exists_eq_add_of_le h
  rw [Nat.shiftRight_add, Nat.shiftRight_eq_div_pow, Nat.shiftRight_eq_div_pow, pair_div,
    Nat.add_sub_cancel_left]

/-- Both words of a pair shifted right by less than a word. -/
theorem pair_shiftRight (low high count : UInt32) (h : count.toNat < 32) :
    2 ^ 32 * (high >>> (count &&& 31)).toNat + (doubleShift low high count).toNat =
      (2 ^ 32 * high.toNat + low.toNat) >>> count.toNat := by
  have hhigh : high.toNat / 2 ^ count.toNat =
      (2 ^ 32 * high.toNat + low.toNat) / 2 ^ count.toNat / 2 ^ 32 := by
    rw [Nat.div_div_eq_div_mul, Nat.mul_comm (2 ^ count.toNat), ← Nat.div_div_eq_div_mul,
      pair_div]
  rw [toNat_shiftRight_and_31, toNat_doubleShift, Nat.mod_eq_of_lt h, hhigh, Nat.div_add_mod,
    Nat.shiftRight_eq_div_pow]

end X86Listing
