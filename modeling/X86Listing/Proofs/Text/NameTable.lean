import X86Listing.Text.NameTable

/-!
# Searching a table of names

A table whose names increase strictly is searched by halving.  The search finds
exactly the entries: `findIgnoreCase?_of_mem` says that no spelling of a name is
missed, and `mem_of_findIgnoreCase?` that nothing else is found.

`narrow_eq` is the invariant of the halving.  The wanted index stays in the range,
because every entry up to it compares as not too large and every entry behind it as
too large.
-/

namespace X86Listing.Text

/-- The names of a table increase strictly, up to letter case. -/
def Increasing {α : Type} (table : Array (String × α)) : Prop :=
  table.toList.Pairwise fun a b => compareIgnoreCase a.1.toList b.1.toList = .lt

instance {α : Type} (table : Array (String × α)) : Decidable (Increasing table) :=
  inferInstanceAs (Decidable (List.Pairwise _ _))

theorem compareIgnoreCase_eq_iff {a b : List Char} :
    compareIgnoreCase a b = .eq ↔ SameLetters a b :=
  show compare (lower a) (lower b) = .eq ↔ lower a = lower b from Std.compare_eq_iff_eq

theorem compareIgnoreCase_gt_of_lt {a b : List Char} (h : compareIgnoreCase a b = .lt) :
    compareIgnoreCase b a = .gt :=
  show compare (lower b) (lower a) = .gt from Std.OrientedCmp.gt_of_lt h

/-- The halving ends at the wanted index. -/
theorem narrow_eq {order : Nat → Ordering} {target : Nat}
    (hle : ∀ i, i ≤ target → order i ≠ .gt) {rounds start size : Nat}
    (hgt : ∀ i, target < i → i < start + size → order i = .gt)
    (hrounds : size ≤ rounds + 1) (hstart : start ≤ target) (hend : target < start + size) :
    narrow order rounds start size = target := by
  induction rounds generalizing start size with
  | zero =>
    rw [narrow]
    omega
  | succ rounds ih =>
    rw [narrow]
    split
    · omega
    · next hsize =>
      simp only
      by_cases hmiddle : start + size / 2 ≤ target
      · rw [if_neg (hle _ hmiddle)]
        exact ih (fun i hi hlt => hgt i hi (by omega)) (by omega) hmiddle (by omega)
      · rw [if_pos (hgt _ (by omega) (by omega))]
        exact ih (fun i hi hlt => hgt i hi (by omega)) (by omega) hstart (by omega)

/-- Every spelling of a name finds the value of that name. -/
theorem findIgnoreCase?_of_mem {α : Type} {table : Array (String × α)} (h : Increasing table)
    {key : String} {value : α} {name : List Char} (hmem : (key, value) ∈ table)
    (hname : SameLetters key.toList name) : findIgnoreCase? table name = some value := by
  obtain ⟨target, htarget, hentry⟩ := Array.mem_iff_getElem.1 hmem
  have hlt : ∀ i j (hi : i < table.size) (hj : j < table.size), i < j →
      compareIgnoreCase (table[i]).1.toList (table[j]).1.toList = .lt :=
    List.pairwise_iff_getElem.1 h
  have hentryOrder : ∀ i (hi : i < table.size), compareEntry table name i =
      compareIgnoreCase (table[i]).1.toList (table[target]).1.toList := by
    intro i hi
    have hlower : lower key.toList = lower name := hname
    rw [compareEntry, Array.getElem?_eq_getElem hi, hentry]
    simp only [compareIgnoreCase, hlower]
  have hnarrow : narrow (compareEntry table name) table.size 0 table.size = target := by
    refine narrow_eq (fun i hi => ?_) (fun i hi hsize => ?_) (by omega) (by omega) (by omega)
    · rw [hentryOrder i (by omega)]
      rcases Nat.eq_or_lt_of_le hi with rfl | hi
      · rw [compareIgnoreCase_eq_iff.2 (.refl _)]
        decide
      · rw [hlt i target (by omega) htarget hi]
        decide
    · rw [hentryOrder i (by omega)]
      exact compareIgnoreCase_gt_of_lt (hlt target i htarget (by omega) hi)
  rw [findIgnoreCase?, hnarrow, Array.getElem?_eq_getElem htarget, hentry]
  exact if_pos (compareIgnoreCase_eq_iff.2 hname)

/-- What is found stands in the table under a spelling of the name. -/
theorem mem_of_findIgnoreCase? {α : Type} {table : Array (String × α)} {name : List Char}
    {value : α} (h : findIgnoreCase? table name = some value) :
    ∃ key, (key, value) ∈ table ∧ SameLetters key.toList name := by
  unfold findIgnoreCase? at h
  split at h
  · next entry hentry =>
    split at h
    · next heq =>
      cases h
      exact ⟨entry.1, Array.mem_of_getElem? hentry, compareIgnoreCase_eq_iff.1 heq⟩
    · cases h
  · cases h

end X86Listing.Text
