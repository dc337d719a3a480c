import X86Listing.Operand.Symbols

/-!
# Readers make progress

A reader that succeeds takes at least one character from the front of its text
and leaves the rest as it was.  `Reader.Advances` says so, and there is one fact
for each reader.  A list of tokens is therefore read in finitely many rounds.
-/

namespace X86Listing

/-- The reader takes at least one character, and what it leaves is an end of the
text. -/
def Reader.Advances {α : Type} (reader : Reader α) : Prop :=
  ∀ {text : List Char} {a : α} {rest : List Char}, reader text = some (a, rest) →
    rest <:+ text ∧ rest.length < text.length

/-! ## Runs of characters -/

theorem skipSpaces_suffix (text : List Char) : skipSpaces text <:+ text :=
  List.dropWhile_suffix _

/-- An end of an end of a text, with a character before it, is an end of the
text with a character before it. -/
theorem suffix_and_length_lt {a b c : List Char} (h : a <:+ b) (k : b <:+ c)
    (hlt : b.length < c.length) : a <:+ c ∧ a.length < c.length :=
  ⟨h.trans k, Nat.lt_of_le_of_lt h.length_le hlt⟩

theorem skipChar?_eq_some {c : Char} {text rest : List Char} :
    skipChar? c text = some rest ↔ text = c :: rest := by
  cases text with
  | nil => simp [skipChar?]
  | cons first tail =>
    unfold skipChar?
    split <;> simp_all

theorem suffix_of_skipChar? {c : Char} {text rest : List Char}
    (h : skipChar? c text = some rest) : rest <:+ text ∧ rest.length < text.length := by
  rw [skipChar?_eq_some] at h
  subst h
  exact ⟨List.suffix_cons .., by simp⟩

/-- What is left behind a run that is not empty is shorter than the text. -/
theorem length_dropWhile_lt {isMember : Char → Bool} {text : List Char}
    (h : text.takeWhile isMember ≠ []) :
    (text.dropWhile isMember).length < text.length := by
  have hsplit := congrArg List.length (List.takeWhile_append_dropWhile (p := isMember) (l := text))
  rw [List.length_append] at hsplit
  have := List.length_pos_iff.2 h
  omega

theorem startsWith_takeWhile_ne_nil {isMember isMember' : Char → Bool} {text : List Char}
    (h : startsWith isMember text = true)
    (himp : ∀ c, isMember c = true → isMember' c = true) :
    text.takeWhile isMember' ≠ [] := by
  cases text with
  | nil => simp [startsWith] at h
  | cons c rest => simp [himp c h]

theorem continuesIdentifier_of_startsIdentifier {c : Char} (h : startsIdentifier c = true) :
    continuesIdentifier c = true := by
  simp only [startsIdentifier, continuesIdentifier, Char.isAlphanum, Bool.or_eq_true] at h ⊢
  rcases h with h | h
  · exact Or.inl (Or.inl h)
  · exact Or.inr h

theorem suffix_of_skipWord? {word text rest : List Char} (h : skipWord? word text = some rest) :
    rest <:+ text := by
  unfold skipWord? at h
  split at h
  · obtain rfl := Option.some.inj h
    exact List.drop_suffix ..
  · simp at h

theorem suffix_of_keyword? {word text rest : List Char} (h : keyword? word text = some rest) :
    rest <:+ text := by
  unfold keyword? at h
  split at h
  · simp at h
  · next left hleft =>
    split at h
    · obtain rfl := Option.some.inj h
      exact (skipSpaces_suffix left).trans (suffix_of_skipWord? hleft)
    · simp at h

/-! ## Names -/

theorem mnemonic?_advances : Reader.Advances mnemonic? := by
  intro text a rest h
  simp only [mnemonic?] at h
  split at h
  · simp at h
  · next hne =>
    split at h
    · simp only [Option.some.injEq, Prod.mk.injEq] at h
      obtain ⟨-, rfl⟩ := h
      exact suffix_and_length_lt (skipSpaces_suffix _) (List.dropWhile_suffix _)
        (length_dropWhile_lt hne)
    · simp at h

theorem identifier?_advances : Reader.Advances identifier? := by
  intro text a rest h
  simp only [identifier?] at h
  split at h
  · next hstart =>
    simp only [Option.some.injEq, Prod.mk.injEq] at h
    obtain ⟨-, rfl⟩ := h
    exact suffix_and_length_lt (skipSpaces_suffix _) (List.dropWhile_suffix _)
      (length_dropWhile_lt
        (startsWith_takeWhile_ne_nil hstart fun _ => continuesIdentifier_of_startsIdentifier))
  · simp at h

theorem segment?_advances : Reader.Advances segment? := by
  intro text a rest h
  simp only [segment?] at h
  split at h
  · simp at h
  · next hne =>
    split at h
    · simp at h
    · next left hleft =>
      simp only [Option.some.injEq, Prod.mk.injEq] at h
      obtain ⟨-, rfl⟩ := h
      exact suffix_and_length_lt
        ((skipSpaces_suffix _).trans (suffix_of_skipChar? hleft).1) (List.dropWhile_suffix _)
        (length_dropWhile_lt hne)

theorem register?_advances : Reader.Advances register? := by
  intro text a rest h
  simp only [register?] at h
  split at h
  · simp at h
  · next hne =>
    split at h
    · simp at h
    · simp only [Option.some.injEq, Prod.mk.injEq] at h
      obtain ⟨-, rfl⟩ := h
      exact suffix_and_length_lt (skipSpaces_suffix _) (List.dropWhile_suffix _)
        (length_dropWhile_lt fun he => hne (Or.inl he))

/-! ## Values -/

theorem skipSign_suffix (text : List Char) : (skipSign text).2 <:+ text := by
  unfold skipSign
  split
  · next rest h => exact (suffix_of_skipChar? h).1
  · exact List.suffix_rfl

theorem skipMark_suffix (text : List Char) : (skipMark text).2 <:+ text := by
  unfold skipMark
  split
  · exact List.suffix_cons ..
  · exact List.suffix_cons ..
  · exact List.suffix_rfl

theorem ne_nil_of_numeral? {marked : Bool} {digits : List Char} {value : UInt32}
    (h : numeral? marked digits = some value) : digits ≠ [] := by
  intro hnil
  simp [numeral?, hnil] at h

theorem number?_advances : Reader.Advances number? := by
  intro text a rest h
  simp only [number?] at h
  split at h
  · simp at h
  · split at h
    · simp at h
    · next value hvalue =>
      simp only [Option.some.injEq, Prod.mk.injEq] at h
      obtain ⟨-, rfl⟩ := h
      have hsign := skipSign_suffix text
      have hdrop := length_dropWhile_lt (ne_nil_of_numeral? hvalue)
      refine suffix_and_length_lt
        ((skipSpaces_suffix _).trans (skipMark_suffix _))
        ((List.dropWhile_suffix _).trans hsign)
        (Nat.lt_of_lt_of_le hdrop hsign.length_le)

namespace Symbols

theorem local?_advances (symbols : Symbols) : Reader.Advances symbols.local? := by
  intro text a rest h
  simp only [local?] at h
  split at h
  · simp at h
  · next name left hname =>
    split at h
    · simp at h
    · simp only [Option.some.injEq, Prod.mk.injEq] at h
      obtain ⟨-, rfl⟩ := h
      exact identifier?_advances hname

theorem skipSegment_suffix (text : List Char) : (skipSegment text).2 <:+ text := by
  unfold skipSegment
  split
  · next segment rest h => exact (segment?_advances h).1
  · exact List.suffix_rfl

theorem skipShort_suffix (text : List Char) : skipShort text <:+ text := by
  unfold skipShort
  cases h : keyword? "short".toList text with
  | none => exact List.suffix_rfl
  | some rest => exact suffix_of_keyword? h

theorem offset?_advances (symbols : Symbols) : Reader.Advances symbols.offset? := by
  intro text a rest h
  simp only [offset?] at h
  split at h
  · simp at h
  · next name left hname =>
    split at h
    · simp at h
    · simp only [Option.some.injEq, Prod.mk.injEq] at h
      obtain ⟨-, rfl⟩ := h
      have hname' := identifier?_advances hname
      have hsuffix := (skipShort_suffix (skipSegment text).2).trans (skipSegment_suffix text)
      exact ⟨hname'.1.trans hsuffix, Nat.lt_of_lt_of_le hname'.2 hsuffix.length_le⟩

theorem value?_advances (symbols : Symbols) : Reader.Advances symbols.value? := by
  intro text a rest h
  simp only [value?, Option.or_eq_some_iff] at h
  rcases h with h | ⟨-, h | ⟨-, h⟩⟩
  · exact number?_advances h
  · exact symbols.local?_advances h
  · exact symbols.offset?_advances h

end Symbols

end X86Listing
