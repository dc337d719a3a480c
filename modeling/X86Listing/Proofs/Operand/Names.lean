import X86Listing.Proofs.Operand.Reading

/-!
# Names of labels in a text

A label that is written out in a text is read as that label, with or without a
segment before it, or it is not read at all.  The second happens to a label `short`
that a space follows: the word is then taken for the keyword.

* `keyword?_eq`: a keyword with spaces behind it is read in either case.
* `Symbols.offset?_name` and `Symbols.offset?_segment`: what an answer for a written
  name says about the tables.
-/

namespace X86Listing

open Text (isSpace SameLetters)

/-! ## Keywords -/

theorem skipWord?_eq {word keyword rest : List Char} (h : SameLetters keyword word) :
    skipWord? word (keyword ++ rest) = some rest := by
  rw [skipWord?, ← length_eq_of_sameLetters h, List.take_left, List.drop_left, if_pos h]

theorem keyword?_eq {word keyword gap rest : List Char} (h : SameLetters keyword word)
    (hgap : ∀ c ∈ gap, isSpace c = true) (hne : gap ≠ [])
    (hrest : startsWith isSpace rest = false) :
    keyword? word (keyword ++ (gap ++ rest)) = some rest := by
  obtain ⟨c, gap, rfl⟩ := List.exists_cons_of_ne_nil hne
  have hspace : startsWith isSpace (c :: gap ++ rest) = true := hgap c List.mem_cons_self
  simp only [keyword?, skipWord?_eq h, hspace, skipSpaces_run hgap hrest]
  rfl

/-- What a keyword was read from. -/
theorem keyword?_eq_some {word text rest : List Char} (h : keyword? word text = some rest) :
    ∃ keyword after, text = keyword ++ after ∧ SameLetters keyword word ∧
      startsWith isSpace after = true ∧ rest = skipSpaces after := by
  unfold keyword? at h
  split at h
  · cases h
  · next after hword =>
    split at h
    · next hspace =>
      cases h
      unfold skipWord? at hword
      split at hword
      · next hletters =>
        cases hword
        exact ⟨_, _, (List.take_append_drop ..).symm, hletters, hspace, rfl⟩
      · cases hword
    · cases h

/-! ## Names -/

namespace AtMark

variable {gap rest : List Char}

theorem not_startsWith_colon (h : AtMark rest) (hgap : ∀ c ∈ gap, isSpace c = true) :
    skipChar? ':' (gap ++ rest) = none := by
  cases gap with
  | cons c gap =>
    have hc : c ≠ ':' := by
      rintro rfl
      cases hgap ':' List.mem_cons_self
    exact if_neg hc
  | nil =>
    cases rest with
    | nil => rfl
    | cons c tail =>
      have hc : c ≠ ':' := by
        rintro rfl
        exact absurd (h ':' tail rfl) (by decide)
      exact if_neg hc

theorem identifier?_eq_none (h : AtMark rest) : identifier? rest = none := by
  have hstop : startsWith continuesIdentifier ([] ++ rest) = false :=
    h.not_startsWith_gap (by simp)
  have hstart : startsWith startsIdentifier rest = false :=
    not_startsWith_of_imp (fun _ => continuesIdentifier_of_startsIdentifier) hstop
  simp [identifier?, hstart]

end AtMark

section Name

variable {name gap rest : List Char} (hname : IsIdentifier name)
  (hgap : ∀ c ∈ gap, isSpace c = true) (hrest : AtMark rest)
include hname hgap hrest

/-- A name is read as a keyword only if it is one, and then nothing but the spaces behind it is
passed over. -/
theorem keyword?_name {word left : List Char} (hword : ∀ c ∈ word, c.isAlpha = true)
    (h : keyword? word (name ++ (gap ++ rest)) = some left) :
    SameLetters name word ∧ left = rest := by
  obtain ⟨keyword, after, htext, hletters, hspace, rfl⟩ := keyword?_eq_some h
  have hkeyword : ∀ c ∈ keyword, continuesIdentifier c = true := fun c hc =>
    continuesIdentifier_of_isAlpha (all_isAlpha_of_sameLetters hword hletters.symm c hc)
  have hafter : startsWith continuesIdentifier after = false := by
    cases after with
    | nil => rfl
    | cons c after => exact not_continuesIdentifier_of_stop (Or.inl hspace)
  have hsame : name = keyword := by
    rw [← takeWhile_run hname.2 (hrest.not_startsWith_gap hgap), htext,
      takeWhile_run hkeyword hafter]
  rw [hsame] at htext ⊢
  rw [← List.append_cancel_left htext]
  exact ⟨hletters, skipSpaces_run hgap hrest.not_startsWith_isSpace⟩

/-- The word `short` before the name is passed over.  If it is the name itself,
nothing is read. -/
theorem identifier?_skipShort {found : List Char × List Char}
    (h : identifier? (Symbols.skipShort (name ++ (gap ++ rest))) = some found) :
    found = (name, rest) := by
  unfold Symbols.skipShort at h
  cases hshort : keyword? "short".toList (name ++ (gap ++ rest)) with
  | none =>
    rw [hshort, Option.getD_none, identifier?_name hname hgap hrest] at h
    exact (Option.some.inj h).symm
  | some left =>
    obtain ⟨-, rfl⟩ := keyword?_name hname hgap hrest (by simp) hshort
    rw [hshort, Option.getD_some, hrest.identifier?_eq_none] at h
    cases h

/-- No colon stands behind the letters of a name. -/
theorem skipChar?_dropWhile_name :
    skipChar? ':' ((name ++ (gap ++ rest)).dropWhile Char.isAlpha) = none := by
  have hnext : startsWith Char.isAlpha (gap ++ rest) = false :=
    not_startsWith_of_imp (fun _ => continuesIdentifier_of_isAlpha)
      (hrest.not_startsWith_gap hgap)
  have hletters := hname.2
  clear hname
  induction name with
  | nil =>
    rw [List.nil_append, dropWhile_of_not_startsWith hnext]
    exact hrest.not_startsWith_colon hgap
  | cons c name ih =>
    rw [List.cons_append, List.dropWhile_cons]
    split
    · exact ih fun d hd => hletters d (List.mem_cons_of_mem _ hd)
    · have hc : c ≠ ':' := by
        rintro rfl
        cases hletters ':' List.mem_cons_self
      exact if_neg hc

/-- A name is no segment. -/
theorem segment?_name : segment? (name ++ (gap ++ rest)) = none := by
  simp only [segment?, skipChar?_dropWhile_name hname hgap hrest]
  split <;> rfl

namespace Symbols

variable {symbols : Symbols} {value : UInt32} {left : List Char}

theorem offset?_name (h : symbols.offset? (name ++ (gap ++ rest)) = some (value, left)) :
    left = rest ∧ symbols.address? none (String.ofList name) = some value := by
  simp only [offset?, skipSegment, segment?_name hname hgap hrest] at h
  split at h
  · cases h
  · next hread =>
    cases identifier?_skipShort hname hgap hrest hread
    split at h
    · cases h
    · next haddress =>
      cases h
      exact ⟨rfl, haddress⟩

/-- A name that is not the word `short` is read as the label of that name. -/
theorem offset?_eq_map (hshort : ¬SameLetters name "short".toList) :
    symbols.offset? (name ++ (gap ++ rest)) =
      (symbols.address? none (String.ofList name)).map fun value => (value, rest) := by
  have hskip : skipShort (name ++ (gap ++ rest)) = name ++ (gap ++ rest) := by
    rw [skipShort]
    cases hread : keyword? "short".toList (name ++ (gap ++ rest)) with
    | none => rfl
    | some left => exact absurd (keyword?_name hname hgap hrest (by simp) hread).1 hshort
  simp only [offset?, skipSegment, segment?_name hname hgap hrest, hskip,
    identifier?_name hname hgap hrest]
  cases symbols.address? none (String.ofList name) <;> rfl

theorem offset?_segment {segment gap' : List Char} (hsegment : SameLetters segment "ds".toList)
    (hgap' : ∀ c ∈ gap', isSpace c = true)
    (h : symbols.offset? (segment ++ ':' :: (gap' ++ (name ++ (gap ++ rest)))) =
      some (value, left)) :
    left = rest ∧ symbols.data.address? (String.ofList name) = some value := by
  have hletters : ∀ c ∈ segment, c.isAlpha = true :=
    all_isAlpha_of_sameLetters (by simp) hsegment.symm
  have hne : segment ≠ [] := ne_nil_of_sameLetters (by simp) hsegment.symm
  have hskip : skipSpaces (gap' ++ (name ++ (gap ++ rest))) = name ++ (gap ++ rest) := by
    refine skipSpaces_run hgap' ?_
    rw [startsWith_append hname.ne_nil]
    exact hname.not_startsWith_isSpace
  have hread : segment? (segment ++ ':' :: (gap' ++ (name ++ (gap ++ rest)))) =
      some (segment, name ++ (gap ++ rest)) := by
    have hnext (text : List Char) : startsWith Char.isAlpha (':' :: text) = false := rfl
    simp only [segment?, takeWhile_run hletters (hnext _), dropWhile_run hletters (hnext _),
      if_neg hne, skipChar?, if_pos, hskip]
  simp only [offset?, skipSegment, hread] at h
  split at h
  · cases h
  · next hread =>
    cases identifier?_skipShort hname hgap hrest hread
    simp only [address?, if_pos hsegment] at h
    split at h
    · cases h
    · next haddress =>
      cases h
      exact ⟨rfl, haddress⟩

end Symbols

end Name

end X86Listing
