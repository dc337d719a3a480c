import Mathlib
import X86Listing.Operand.Progress
import X86Listing.Proofs.Instruction.Spelling

/-!
# Runs of characters

A reader takes the characters of a class and stops at the first other one.
`takeWhile_run` and `dropWhile_run` say that it stops behind a word if the character
behind the word is outside of the class.

Letters, digits and `_` make up words.  Spaces and marks do not, so a word ends at
any of them: `AtMark.not_startsWith_gap` says so of spaces with a mark behind them.
-/

namespace X86Listing

open Text (isSpace isHexDigit SameLetters lower)

/-! ## Characters -/

/-- A space or a mark is part of no word. -/
theorem not_continuesIdentifier_of_stop {c : Char} (h : isSpace c = true ∨ c ∈ marks) :
    continuesIdentifier c = false := by
  simp only [isSpace, marks, Bool.or_eq_true, beq_iff_eq, List.mem_cons, List.not_mem_nil,
    or_false] at h
  rcases h with ((((rfl | rfl) | rfl) | rfl) | rfl) | rfl | rfl | rfl | rfl | rfl | rfl <;> decide

theorem not_isSpace_of_mark {c : Char} (h : c ∈ marks) : isSpace c = false := by
  simp only [marks, List.mem_cons, List.not_mem_nil, or_false] at h
  rcases h with rfl | rfl | rfl | rfl | rfl | rfl <;> decide

theorem not_isSpace_of_continuesIdentifier {c : Char} (h : continuesIdentifier c = true) :
    isSpace c = false := by
  cases hspace : isSpace c with
  | false => rfl
  | true =>
    rw [not_continuesIdentifier_of_stop (Or.inl hspace)] at h
    cases h

/-- A letter in either case. -/
theorem eq_or_eq_of_toLower {c : Char} (small capital : Char)
    (hcapital : small.val - 32 = capital.val) (h : c.toLower = small) :
    c = small ∨ c = capital := by
  unfold Char.toLower at h
  split at h
  · refine Or.inr (Char.ext ?_)
    have hval : c.val + 32 = small.val := congrArg Char.val h
    rw [← hcapital, ← hval, UInt32.add_sub_cancel]
  · exact Or.inl h

theorem continuesIdentifier_of_isDigit {c : Char} (h : c.isDigit = true) :
    continuesIdentifier c = true := by
  simp [continuesIdentifier, Char.isAlphanum, h]

theorem continuesIdentifier_of_isAlpha {c : Char} (h : c.isAlpha = true) :
    continuesIdentifier c = true := by
  simp [continuesIdentifier, Char.isAlphanum, h]

theorem not_isAlpha_of_isDigit {c : Char} (h : c.isDigit = true) : c.isAlpha = false := by
  simp only [Char.isDigit, UInt32.le_iff_toNat_le, Bool.and_eq_true, decide_eq_true_eq,
    ge_iff_le] at h
  simp only [Char.isAlpha, Char.isLower, Char.isUpper, UInt32.le_iff_toNat_le,
    Bool.or_eq_false_iff, Bool.and_eq_false_iff, decide_eq_false_iff_not, ge_iff_le]
  have : '9'.val.toNat < 'A'.val.toNat := by decide
  have : '9'.val.toNat < 'a'.val.toNat := by decide
  omega

theorem isHexDigit_of_isDigit {c : Char} (h : c.isDigit = true) : isHexDigit c = true := by
  simp [isHexDigit, h]

theorem continuesIdentifier_of_isHexDigit {c : Char} (h : isHexDigit c = true) :
    continuesIdentifier c = true := by
  simp only [isHexDigit, Char.isDigit, Char.le_def, UInt32.le_iff_toNat_le, Bool.or_eq_true,
    Bool.and_eq_true, decide_eq_true_eq, ge_iff_le] at h
  simp only [continuesIdentifier, Char.isAlphanum, Char.isAlpha, Char.isLower, Char.isUpper,
    Char.isDigit, UInt32.le_iff_toNat_le, Bool.or_eq_true, Bool.and_eq_true, decide_eq_true_eq,
    ge_iff_le]
  have : 'f'.val.toNat ≤ 'z'.val.toNat := by decide
  have : 'F'.val.toNat ≤ 'Z'.val.toNat := by decide
  omega

/-! ## Runs of characters -/

theorem startsWith_append {isMember : Char → Bool} {word rest : List Char} (h : word ≠ []) :
    startsWith isMember (word ++ rest) = startsWith isMember word := by
  cases word with
  | nil => exact absurd rfl h
  | cons c word => rfl

theorem takeWhile_of_not_startsWith {isMember : Char → Bool} {text : List Char}
    (h : startsWith isMember text = false) : text.takeWhile isMember = [] := by
  cases text with
  | nil => rfl
  | cons c text => exact List.takeWhile_cons_of_neg (by simpa [startsWith] using h)

theorem dropWhile_of_not_startsWith {isMember : Char → Bool} {text : List Char}
    (h : startsWith isMember text = false) : text.dropWhile isMember = text := by
  cases text with
  | nil => rfl
  | cons c text => exact List.dropWhile_cons_of_neg (by simpa [startsWith] using h)

theorem not_startsWith_of_imp {isMember isMember' : Char → Bool} {text : List Char}
    (himp : ∀ c, isMember c = true → isMember' c = true)
    (h : startsWith isMember' text = false) : startsWith isMember text = false := by
  cases text with
  | nil => rfl
  | cons c text =>
    rw [startsWith] at h ⊢
    cases hc : isMember c with
    | false => rfl
    | true =>
      rw [himp c hc] at h
      cases h

theorem not_startsWith_dropWhile (isMember : Char → Bool) (text : List Char) :
    startsWith isMember (text.dropWhile isMember) = false := by
  induction text with
  | nil => rfl
  | cons c text ih =>
    rw [List.dropWhile_cons]
    split
    · exact ih
    · next hc => simpa [startsWith] using hc

/-- A run ends where a character outside of the class comes next. -/
theorem takeWhile_run {isMember : Char → Bool} {word rest : List Char}
    (hword : ∀ c ∈ word, isMember c = true) (hrest : startsWith isMember rest = false) :
    (word ++ rest).takeWhile isMember = word := by
  rw [List.takeWhile_append_of_pos hword, takeWhile_of_not_startsWith hrest, List.append_nil]

theorem dropWhile_run {isMember : Char → Bool} {word rest : List Char}
    (hword : ∀ c ∈ word, isMember c = true) (hrest : startsWith isMember rest = false) :
    (word ++ rest).dropWhile isMember = rest := by
  rw [List.dropWhile_append_of_pos hword, dropWhile_of_not_startsWith hrest]

theorem skipSpaces_run {gap rest : List Char} (hgap : ∀ c ∈ gap, isSpace c = true)
    (hrest : startsWith isSpace rest = false) : skipSpaces (gap ++ rest) = rest :=
  dropWhile_run hgap hrest

theorem exists_gap_skipSpaces (text : List Char) :
    ∃ gap, text = gap ++ skipSpaces text ∧ (∀ c ∈ gap, isSpace c = true) ∧
      (startsWith isSpace text = true → gap ≠ []) :=
  ⟨text.takeWhile isSpace, List.takeWhile_append_dropWhile.symm,
    fun _ hc => List.mem_takeWhile_imp hc, fun h => startsWith_takeWhile_ne_nil h fun _ => id⟩

@[simp]
theorem skipCommas_nil : skipCommas [] = [] := rfl

/-- Spaces and commas are passed over. -/
theorem skipCommas_append {sep : List Char} (hsep : ∀ c ∈ sep, isSpace c = true ∨ c = ',')
    (rest : List Char) : skipCommas (sep ++ rest) = skipCommas rest := by
  refine List.dropWhile_append_of_pos fun c hc => ?_
  rcases hsep c hc with hspace | rfl
  · rw [hspace, Bool.true_or]
  · rfl

theorem skipCommas_skipSpaces (text : List Char) :
    skipCommas (skipSpaces text) = skipCommas text := by
  induction text with
  | nil => rfl
  | cons c text ih =>
    by_cases hspace : isSpace c = true
    · have hskip : skipSpaces (c :: text) = skipSpaces text := by
        rw [skipSpaces, List.dropWhile_cons_of_pos hspace, skipSpaces]
      rw [hskip, ih, skipCommas, skipCommas, List.dropWhile_cons_of_pos (by simp [hspace])]
    · rw [skipSpaces, List.dropWhile_cons_of_neg hspace]

/-! ## Words -/

/-- A text in the letters of a word is a word. -/
theorem all_isAlpha_of_sameLetters {name word : List Char}
    (hname : ∀ c ∈ name, c.isAlpha = true) (h : SameLetters name word) :
    ∀ c ∈ word, c.isAlpha = true := by
  intro c hc
  have hmem : c.toLower ∈ lower name := by
    have hlower : lower name = lower word := h
    rw [hlower]
    exact List.mem_map_of_mem hc
  obtain ⟨d, hd, hlower⟩ := List.mem_map.1 hmem
  rw [← Char.isAlpha_toLower_eq_isAlpha c, ← hlower, Char.isAlpha_toLower_eq_isAlpha]
  exact hname d hd

theorem length_eq_of_sameLetters {a b : List Char} (h : SameLetters a b) :
    a.length = b.length := by
  have hlength := congrArg List.length (show lower a = lower b from h)
  rwa [Text.length_lower, Text.length_lower] at hlength

theorem ne_nil_of_sameLetters {name word : List Char} (hname : name ≠ [])
    (h : SameLetters name word) : word ≠ [] := by
  rintro rfl
  exact hname (List.length_eq_zero_iff.1 (length_eq_of_sameLetters h))

/-- A word of letters does not start with a space or a mark. -/
theorem startsWith_letters {word : List Char} (hne : word ≠ [])
    (hword : ∀ c ∈ word, c.isAlpha = true) (rest : List Char) :
    startsWith isSpace (word ++ rest) = false ∧ startsWith (· == '[') (word ++ rest) = false ∧
      startsWith (fun c => isSpace c || c == ',') (word ++ rest) = false := by
  obtain ⟨c, tail, rfl⟩ := List.exists_cons_of_ne_nil hne
  have hc : c.isAlpha = true := hword c List.mem_cons_self
  have hspace := not_isSpace_of_continuesIdentifier (continuesIdentifier_of_isAlpha hc)
  have hopen : (c == '[') = false := by
    rw [beq_eq_false_iff_ne]
    rintro rfl
    cases hc
  have hcomma : (c == ',') = false := by
    rw [beq_eq_false_iff_ne]
    rintro rfl
    cases hc
  refine ⟨hspace, hopen, ?_⟩
  show (isSpace c || c == ',') = false
  rw [hspace, hcomma, Bool.or_false]

theorem IsIdentifier.ne_nil {text : List Char} (h : IsIdentifier text) : text ≠ [] := by
  rintro rfl
  cases h.1

theorem IsIdentifier.not_startsWith_isSpace {text : List Char} (h : IsIdentifier text) :
    startsWith isSpace text = false := by
  obtain ⟨c, tail, rfl⟩ := List.exists_cons_of_ne_nil h.ne_nil
  exact not_isSpace_of_continuesIdentifier (h.2 c List.mem_cons_self)

/-! ## Marks -/

/-- A mark comes next, or nothing. -/
def AtMark (text : List Char) : Prop :=
  ∀ c tail, text = c :: tail → c ∈ marks

namespace AtMark

variable {gap rest : List Char}

theorem not_startsWith_isSpace (h : AtMark rest) : startsWith isSpace rest = false := by
  cases rest with
  | nil => rfl
  | cons c tail => exact not_isSpace_of_mark (h c tail rfl)

theorem not_startsWith_gap (h : AtMark rest) (hgap : ∀ c ∈ gap, isSpace c = true) :
    startsWith continuesIdentifier (gap ++ rest) = false := by
  cases gap with
  | cons c gap => exact not_continuesIdentifier_of_stop (Or.inl (hgap c List.mem_cons_self))
  | nil =>
    cases rest with
    | nil => rfl
    | cons c tail => exact not_continuesIdentifier_of_stop (Or.inr (h c tail rfl))

end AtMark

end X86Listing
