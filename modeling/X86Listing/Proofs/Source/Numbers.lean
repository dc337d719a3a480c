import X86Listing.Power
import X86Listing.Source.Line

/-!
# Numbers of lines

The lines of a listing are its raw lines in normal form, less the empty ones, and each keeps the
number that it has among the raw lines.  `Line.mem_ofRaw` says so of one line, and
`Line.pairwise_ofRaw` that the numbers increase as long as they fit a word.
-/

namespace X86Listing.Line

/-- A raw line with text in it is a line of the listing. -/
theorem ofRaw_cons {raw : List Char} (h : normalize raw ≠ []) (index : Nat)
    (rest : List (List Char)) :
    ofRaw index (raw :: rest) =
      ⟨UInt32.ofNat (index + 1), normalize raw⟩ :: ofRaw (index + 1) rest := by
  rw [ofRaw]
  split
  · next hnil => exact absurd hnil h
  · rfl

/-- A raw line without text is passed over. -/
theorem ofRaw_cons_of_nil {raw : List Char} (h : normalize raw = []) (index : Nat)
    (rest : List (List Char)) : ofRaw index (raw :: rest) = ofRaw (index + 1) rest := by
  rw [ofRaw, h]

/-- The lines are the raw lines whose normal form is not empty. -/
theorem mem_ofRaw {index : Nat} {raws : List (List Char)} {line : Line} :
    line ∈ ofRaw index raws ↔ ∃ k raw, raws[k]? = some raw ∧ normalize raw = line.text ∧
      line.text ≠ [] ∧ line.number = UInt32.ofNat (index + k + 1) := by
  induction raws generalizing index with
  | nil => simp [ofRaw]
  | cons first raws ih =>
    have hrest : line ∈ ofRaw (index + 1) raws ↔ ∃ k raw, (first :: raws)[k + 1]? = some raw ∧
        normalize raw = line.text ∧ line.text ≠ [] ∧
          line.number = UInt32.ofNat (index + (k + 1) + 1) := by
      simp only [ih, List.getElem?_cons_succ, Nat.add_assoc, Nat.add_comm 1]
    by_cases hfirst : normalize first = []
    · rw [ofRaw_cons_of_nil hfirst, hrest]
      constructor
      · rintro ⟨k, hk⟩
        exact ⟨k + 1, hk⟩
      · rintro ⟨_ | k, raw, hraw, htext, hne, hnumber⟩
        · cases hraw
          exact absurd (htext.symm.trans hfirst) hne
        · exact ⟨k, raw, hraw, htext, hne, hnumber⟩
    · rw [ofRaw_cons hfirst, List.mem_cons, hrest]
      constructor
      · rintro (rfl | ⟨k, hk⟩)
        · exact ⟨0, first, rfl, rfl, hfirst, rfl⟩
        · exact ⟨k + 1, hk⟩
      · rintro ⟨_ | k, raw, hraw, htext, hne, hnumber⟩
        · obtain ⟨number, text⟩ := line
          cases hraw
          cases htext
          cases hnumber
          exact Or.inl rfl
        · exact Or.inr ⟨k, raw, hraw, htext, hne, hnumber⟩

/-- The numbers increase if all of them fit. -/
theorem pairwise_ofRaw {index : Nat} {raws : List (List Char)}
    (h : index + raws.length < 2 ^ 32) :
    (ofRaw index raws).Pairwise fun a b => a.number < b.number := by
  induction raws generalizing index with
  | nil => exact .nil
  | cons first raws ih =>
    rw [List.length_cons] at h
    have hrest := ih (show index + 1 + raws.length < 2 ^ 32 by omega)
    by_cases hfirst : normalize first = []
    · rwa [ofRaw_cons_of_nil hfirst]
    · rw [ofRaw_cons hfirst]
      refine List.pairwise_cons.2 ⟨fun line hline => ?_, hrest⟩
      obtain ⟨k, raw, hraw, -, -, hnumber⟩ := mem_ofRaw.1 hline
      obtain ⟨hk, -⟩ := List.getElem?_eq_some_iff.1 hraw
      have hsize : UInt32.size = 2 ^ 32 := rfl
      rw [hnumber, UInt32.lt_iff_toNat_lt, UInt32.toNat_ofNat_of_lt' (by omega),
        UInt32.toNat_ofNat_of_lt' (by omega)]
      omega

end X86Listing.Line
