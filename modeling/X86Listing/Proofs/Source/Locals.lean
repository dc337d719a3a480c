import X86Listing.Procedure.Survey
import X86Listing.Proofs.Operand.Names
import X86Listing.Proofs.Source.Numbers

/-!
# Lines that declare locals

A local is declared on a line such as `arg_0 = dword ptr 8`.  `local?_declaration` says that
any line of this form gives the name its number, with letters of the two keywords in either
case and any number of spaces.

The rest of the module is about listings that are put together from parts, for instance
around a number that is not given.

* `pieces_append_cons`: the first line ends where the separator stands.
* `normalizeFrom_plain_append`: a word that holds nothing special is its own normal form.
* `literal_toDigits`: the decimal digits of a number spell it.
-/

namespace X86Listing

open Text (isBlank isSpace ofDigits digitValue pieces SameLetters)

/-! ## Lines of a listing -/

theorem Text.pieces_append_cons {sep : Char} {text : List Char} (h : sep ∉ text)
    (rest : List Char) : pieces sep (text ++ sep :: rest) = text :: pieces sep rest := by
  induction text with
  | nil => exact pieces_cons_self sep rest
  | cons c text ih =>
    obtain ⟨hc, htext⟩ : sep ≠ c ∧ sep ∉ text := by simpa using h
    rw [List.cons_append, pieces, if_neg (Ne.symm hc), ih htext]

/-- A character that the normal form keeps and that changes nothing around it. -/
def IsPlain (c : Char) : Prop :=
  c ≠ ';' ∧ c ≠ '\r' ∧ isBlank c = false ∧ isQuote c = false

theorem normalizeFrom_plain_append {word : List Char} (h : ∀ c ∈ word, IsPlain c)
    (rest : List Char) :
    normalizeFrom none true false (word ++ rest) = word ++ normalizeFrom none true false rest := by
  induction word with
  | nil => rfl
  | cons c word ih =>
    obtain ⟨hcomment, hreturn, hblank, hquote⟩ := h c List.mem_cons_self
    simp only [List.cons_append, normalizeFrom, if_neg hcomment, if_neg hreturn, hblank, hquote,
      Bool.false_and, Bool.false_eq_true, if_false, ih fun d hd => h d (List.mem_cons_of_mem c hd)]

theorem normalizeFrom_plain {text : List Char} (h : ∀ c ∈ text, IsPlain c) :
    normalizeFrom none true false text = text := by
  simpa [normalizeFrom] using normalizeFrom_plain_append h []

/-- Blanks between two words become one space. -/
theorem normalizeFrom_pending {text : List Char} (h : ∀ c ∈ text, IsPlain c)
    (hne : text ≠ []) : normalizeFrom none true true text = ' ' :: text := by
  obtain ⟨c, text, rfl⟩ := List.exists_cons_of_ne_nil hne
  obtain ⟨hcomment, hreturn, hblank, hquote⟩ := h c List.mem_cons_self
  simp only [normalizeFrom, if_neg hcomment, if_neg hreturn, hblank, hquote, Bool.true_and,
    Bool.false_eq_true, if_false, if_true,
    normalizeFrom_plain fun d hd => h d (List.mem_cons_of_mem c hd)]

theorem isPlain_of_continuesIdentifier {c : Char} (h : continuesIdentifier c = true) :
    IsPlain c := by
  simp only [continuesIdentifier, Char.isAlphanum, Char.isAlpha, Char.isLower, Char.isUpper,
    Char.isDigit, UInt32.le_iff_toNat_le, Bool.or_eq_true, Bool.and_eq_true, decide_eq_true_eq,
    beq_iff_eq, ge_iff_le] at h
  obtain ⟨hlow, hhigh, hcomment⟩ : 48 ≤ c.toNat ∧ c.toNat ≤ 122 ∧ c.toNat ≠ 59 := by
    rcases h with h | rfl
    · have hranges : ((65 ≤ c.toNat ∧ c.toNat ≤ 90) ∨ (97 ≤ c.toNat ∧ c.toNat ≤ 122)) ∨
          (48 ≤ c.toNat ∧ c.toNat ≤ 57) := h
      omega
    · decide
  have hne : ∀ d : Char, d.toNat < 48 ∨ d.toNat = 59 → c ≠ d := by
    rintro d hd rfl
    omega
  refine ⟨hne _ (by decide), hne _ (by decide), ?_, ?_⟩
  · simp only [isBlank, Bool.or_eq_false_iff, Bool.and_eq_false_iff, decide_eq_false_iff_not,
      beq_eq_false_iff_ne]
    omega
  · rw [isQuote, beq_eq_false_iff_ne.2 (hne _ (by decide)),
      beq_eq_false_iff_ne.2 (hne _ (by decide))]
    rfl

theorem isPlain_of_isDigit {c : Char} (h : c.isDigit = true) : IsPlain c :=
  isPlain_of_continuesIdentifier (continuesIdentifier_of_isDigit h)

/-! ## Numbers -/

theorem ofDigits_eq_ofDigitChars {digits : List Char} (h : ∀ c ∈ digits, c.isDigit = true) :
    ofDigits 10 digits = Nat.ofDigitChars 10 digits 0 := by
  rw [Nat.ofDigitChars_eq_foldl]
  refine List.foldl_ext _ _ 0 fun value c hc => ?_
  rw [digitValue, if_pos (h c hc)]

/-- The decimal digits of a number spell it. -/
theorem literal_toDigits {n : Nat} (h : n < 2 ^ 32) :
    Literal (UInt32.ofNat n) (Nat.toDigits 10 n) := by
  have hdigits : ∀ c ∈ Nat.toDigits 10 n, c.isDigit = true :=
    fun c hc => Nat.isDigit_of_mem_toDigits (by decide) (by decide) hc
  refine .decimal Nat.toDigits_ne_nil hdigits ?_
  rw [ofDigits_eq_ofDigitChars hdigits, Nat.ofDigitChars_toDigits (by decide) (by decide),
    UInt32.toNat_ofNat_of_lt' h]

/-! ## Declarations -/

/-- A name that is read as an identifier ends where no letter or digit comes next. -/
theorem identifier?_run {name gap rest : List Char} (hname : IsIdentifier name)
    (hgap : ∀ c ∈ gap, isSpace c = true) (hrest : startsWith continuesIdentifier rest = false)
    (hspace : startsWith isSpace rest = false) :
    identifier? (name ++ (gap ++ rest)) = some (name, rest) := by
  have hnext : startsWith continuesIdentifier (gap ++ rest) = false := by
    cases gap with
    | nil => exact hrest
    | cons c gap => exact not_continuesIdentifier_of_stop (Or.inl (hgap c List.mem_cons_self))
  rw [identifier?_append hname hnext, skipSpaces_run hgap hspace]

theorem isAlpha_of_isWidth {width : List Char} (h : isWidth width = true) :
    width ≠ [] ∧ ∀ c ∈ width, c.isAlpha = true := by
  have hword : ∀ word : List Char, word ≠ [] → (∀ c ∈ word, c.isAlpha = true) →
      SameLetters width word → width ≠ [] ∧ ∀ c ∈ width, c.isAlpha = true :=
    fun word hne hletters hsame =>
      ⟨ne_nil_of_sameLetters hne hsame.symm, all_isAlpha_of_sameLetters hletters hsame.symm⟩
  simp only [isWidth, Bool.or_eq_true, decide_eq_true_eq] at h
  rcases h with ((h | h) | h) | h <;> exact hword _ (by simp) (by simp) h

/-- A word of letters ends where the spaces start. -/
theorem takeWhile_not_isSpace {word gap : List Char} (hword : ∀ c ∈ word, c.isAlpha = true)
    (hgap : ∀ c ∈ gap, isSpace c = true) (hne : gap ≠ []) (rest : List Char) :
    (word ++ (gap ++ rest)).takeWhile (fun c => !isSpace c) = word := by
  obtain ⟨c, gap, rfl⟩ := List.exists_cons_of_ne_nil hne
  refine takeWhile_run (fun d hd => ?_) ?_
  · rw [not_isSpace_of_continuesIdentifier (continuesIdentifier_of_isAlpha (hword d hd))]
    rfl
  · simp [startsWith, hgap c List.mem_cons_self]

/-- A line of the form `name = width ptr number` declares a local. -/
theorem local?_declaration {name gap₁ gap₂ width gap₃ keyword gap₄ word : List Char}
    {value : UInt32} (hname : IsIdentifier name) (hgap₁ : ∀ c ∈ gap₁, isSpace c = true)
    (hgap₂ : ∀ c ∈ gap₂, isSpace c = true) (hwidth : isWidth width = true)
    (hgap₃ : ∀ c ∈ gap₃, isSpace c = true) (hne₃ : gap₃ ≠ [])
    (hkeyword : SameLetters keyword "ptr".toList) (hgap₄ : ∀ c ∈ gap₄, isSpace c = true)
    (hne₄ : gap₄ ≠ []) (hword : Literal value word) :
    local? (name ++ (gap₁ ++ '=' :: (gap₂ ++ (width ++ (gap₃ ++ (keyword ++ (gap₄ ++ word)))))))
      = some (name, value) := by
  obtain ⟨hwidthne, hletters⟩ := isAlpha_of_isWidth hwidth
  have hkeywordne : keyword ≠ [] := ne_nil_of_sameLetters (by simp) hkeyword.symm
  have hkeyletters : ∀ c ∈ keyword, c.isAlpha = true :=
    all_isAlpha_of_sameLetters (by simp) hkeyword.symm
  have hwordspace : startsWith isSpace word = false := by
    obtain ⟨c, tail, rfl, hc⟩ := hword.exists_digit
    exact not_isSpace_of_continuesIdentifier (continuesIdentifier_of_isDigit hc)
  have hread : ∀ rest, identifier? (name ++ (gap₁ ++ '=' :: rest)) = some (name, '=' :: rest) :=
    fun rest => identifier?_run hname hgap₁ rfl rfl
  have hskip : skipSpaces (gap₂ ++ (width ++ (gap₃ ++ (keyword ++ (gap₄ ++ word))))) =
      width ++ (gap₃ ++ (keyword ++ (gap₄ ++ word))) :=
    skipSpaces_run hgap₂ (startsWith_letters hwidthne hletters _).1
  have hskip' : skipSpaces (gap₃ ++ (keyword ++ (gap₄ ++ word))) = keyword ++ (gap₄ ++ word) :=
    skipSpaces_run hgap₃ (startsWith_letters hkeywordne hkeyletters _).1
  have hnumber : number? word = some (value, []) := by
    have hend : startsWith continuesIdentifier [] = false := rfl
    have hliteral := number?_of_literal hword hend
    rwa [List.append_nil] at hliteral
  simp only [local?, hread, skipChar?, if_pos, hskip, takeWhile_not_isSpace hletters hgap₃ hne₃,
    hwidth, List.drop_left, hskip', keyword?_eq hkeyword hgap₄ hne₄ hwordspace,
    Option.getD_some, hnumber, Option.bind_eq_bind, Option.bind_some]
  rfl

end X86Listing
