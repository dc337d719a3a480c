import X86Listing.Proofs.Operand.Declared

/-!
# Numerals

A number is written with an optional minus sign, digits, and a mark behind hexadecimal digits.
`Numeral` holds these parts, and `Numeral.value` is the integer that they spell, of any size.

`number?_eq_some_iff` says which texts are read as a number.  The word that is read is the
value modulo `2 ^ 32` (`Numeral.toNat_word`), so the sign cannot be told from the word.
-/

namespace X86Listing

open Text (isSpace isHexDigit ofDigits)

/-! ## Definitions -/

/-- The parts of a written number. -/
structure Numeral where
  /-- Is there a minus sign in front? -/
  negative : Bool
  digits : List Char
  /-- The mark behind hexadecimal digits. -/
  mark : Option Char

namespace Numeral

/-- The text of a numeral. -/
def text (numeral : Numeral) : List Char :=
  (if numeral.negative then ['-'] else []) ++ (numeral.digits ++ numeral.mark.toList)

/-- The integer that the digits spell. -/
def magnitude (numeral : Numeral) : Nat :=
  ofDigits (if numeral.mark.isSome then 16 else 10) numeral.digits

/-- The integer that a numeral spells. -/
def value (numeral : Numeral) : Int :=
  if numeral.negative then -numeral.magnitude else numeral.magnitude

/-- The word that a numeral is read as. -/
def word (numeral : Numeral) : UInt32 :=
  if numeral.negative then -UInt32.ofNat numeral.magnitude else UInt32.ofNat numeral.magnitude

/-- There are digits, they are decimal ones unless there is a mark, and the mark is `h` or
`H`. -/
structure WellFormed (numeral : Numeral) : Prop where
  digits_ne_nil : numeral.digits ≠ []
  isHexDigit : ∀ c ∈ numeral.digits, isHexDigit c = true
  isDigit : numeral.mark = none → ∀ c ∈ numeral.digits, c.isDigit = true
  mark_eq : ∀ c ∈ numeral.mark, c = 'h' ∨ c = 'H'

/-- A numeral goes up to this text: neither a letter nor `_` comes next, and no further digit
if there is no mark. -/
def EndsBefore (numeral : Numeral) (rest : List Char) : Prop :=
  startsWith startsIdentifier rest = false ∧
    (numeral.mark = none → startsWith Char.isDigit rest = false)

/-! ## Values -/

/-- The word is the value modulo `2 ^ 32`. -/
theorem toNat_word (numeral : Numeral) :
    (numeral.word.toNat : Int) = numeral.value % 2 ^ 32 := by
  have hpos : ((UInt32.ofNat numeral.magnitude).toNat : Int) = numeral.magnitude % 2 ^ 32 := by
    simp
  unfold word value
  cases numeral.negative with
  | false => exact hpos
  | true =>
    have hsize : UInt32.size = 4294967296 := rfl
    have hlt := (UInt32.ofNat numeral.magnitude).toNat_lt
    simp only [if_true, UInt32.toNat_neg, hsize]
    omega

theorem natAbs_value (numeral : Numeral) : numeral.value.natAbs = numeral.magnitude := by
  unfold value
  split <;> simp

end Numeral

/-! ## Reading -/

/-- A minus sign is taken off the front of a text, if there is one. -/
theorem append_skipSign (text : List Char) :
    (if (skipSign text).1 then ['-'] else []) ++ (skipSign text).2 = text := by
  unfold skipSign
  split
  · next rest hrest => exact (skipChar?_eq_some.1 hrest).symm
  · rfl

/-- A mark is taken off the front of a text, if there is one. -/
theorem exists_mark (text : List Char) :
    ∃ (mark : Option Char) (rest : List Char), (∀ c ∈ mark, c = 'h' ∨ c = 'H') ∧
      text = mark.toList ++ rest ∧ skipMark text = (mark.isSome, rest) := by
  rcases skipMark_cases text with ⟨mark, rest, rfl, hmark, hskip⟩ | hskip
  · refine ⟨some mark, rest, ?_, rfl, hskip⟩
    rintro c ⟨⟩
    exact hmark
  · refine ⟨none, text, ?_, rfl, hskip⟩
    rintro c ⟨⟩

theorem skipSign_of_ne {c : Char} (h : c ≠ '-') (text : List Char) :
    skipSign (c :: text) = (false, c :: text) := by
  simp [skipSign, skipChar?, h]

/-- What behind the digits is neither letter nor digit is no mark. -/
theorem skipMark_of_not_startsIdentifier {text : List Char}
    (h : startsWith startsIdentifier text = false) : skipMark text = (false, text) := by
  rcases skipMark_cases text with ⟨mark, rest, rfl, rfl | rfl, -⟩ | hskip
  · cases h
  · cases h
  · exact hskip

/-- A hexadecimal digit is a decimal one or a letter. -/
theorem isDigit_or_startsIdentifier {c : Char} (h : isHexDigit c = true) :
    c.isDigit = true ∨ startsIdentifier c = true := by
  cases hstart : startsIdentifier c with
  | true => exact Or.inr rfl
  | false =>
    exact Or.inl (isDigit_of_continuesIdentifier (continuesIdentifier_of_isHexDigit h) hstart)

namespace Numeral

variable {numeral : Numeral} {rest : List Char}

theorem EndsBefore.not_startsWith_isHexDigit (h : numeral.EndsBefore rest)
    (hmark : numeral.mark = none) : startsWith isHexDigit rest = false := by
  obtain ⟨hstart, hdigit⟩ := h
  cases rest with
  | nil => rfl
  | cons c rest =>
    cases hhex : startsWith Text.isHexDigit (c :: rest) with
    | false => rfl
    | true =>
      rcases isDigit_or_startsIdentifier hhex with hc | hc
      · exact absurd (hdigit hmark) (by simp [startsWith, hc])
      · exact absurd hstart (by simp [startsWith, hc])

/-- The sign of a numeral is found. -/
theorem WellFormed.skipSign_text (h : numeral.WellFormed) (rest : List Char) :
    skipSign (numeral.text ++ rest) =
      (numeral.negative, numeral.digits ++ (numeral.mark.toList ++ rest)) := by
  unfold text
  cases numeral.negative with
  | true => simp [skipSign, skipChar?]
  | false =>
    obtain ⟨c, digits, hdigits⟩ := List.exists_cons_of_ne_nil h.digits_ne_nil
    have hhex := h.isHexDigit c (by rw [hdigits]; exact List.mem_cons_self)
    have hne : c ≠ '-' := by
      rintro rfl
      cases hhex
    simpa [hdigits] using skipSign_of_ne hne _

/-- Its digits and its mark are found, if it ends there. -/
theorem WellFormed.run_text (h : numeral.WellFormed) (hends : numeral.EndsBefore rest) :
    (numeral.digits ++ (numeral.mark.toList ++ rest)).takeWhile Text.isHexDigit =
        numeral.digits ∧
      skipMark ((numeral.digits ++ (numeral.mark.toList ++ rest)).dropWhile
        Text.isHexDigit) = (numeral.mark.isSome, rest) := by
  cases hmark : numeral.mark with
  | none =>
    have hnext := hends.not_startsWith_isHexDigit hmark
    rw [Option.toList_none, List.nil_append, takeWhile_run h.isHexDigit hnext,
      dropWhile_run h.isHexDigit hnext]
    exact ⟨rfl, skipMark_of_not_startsIdentifier hends.1⟩
  | some mark =>
    have hletter := h.mark_eq mark hmark
    have hnext : startsWith Text.isHexDigit ([mark] ++ rest) = false := by
      rcases hletter with rfl | rfl <;> rfl
    rw [Option.toList_some, takeWhile_run h.isHexDigit hnext, dropWhile_run h.isHexDigit hnext]
    refine ⟨rfl, ?_⟩
    rcases hletter with rfl | rfl <;> rfl

/-- A numeral of less than `2 ^ 32` is read as its word, and a larger one is not read. -/
theorem WellFormed.number?_text (h : numeral.WellFormed) (hends : numeral.EndsBefore rest) :
    number? (numeral.text ++ rest) =
      if numeral.magnitude < 2 ^ 32 then some (numeral.word, skipSpaces rest) else none := by
  obtain ⟨hdigits, hmark⟩ := h.run_text hends
  have hdecimal : ¬(numeral.digits = [] ∨
      !numeral.mark.isSome ∧ !numeral.digits.all Char.isDigit) := by
    rintro (hnil | ⟨hmark, hdigit⟩)
    · exact h.digits_ne_nil hnil
    · simp only [Bool.not_eq_true', Option.isSome_eq_false_iff, Option.isNone_iff_eq_none] at hmark
      rw [List.all_eq_true.2 (h.isDigit hmark)] at hdigit
      cases hdigit
  have hnumeral : numeral? numeral.mark.isSome numeral.digits =
      if numeral.magnitude < 2 ^ 32 then some (UInt32.ofNat numeral.magnitude) else none :=
    if_neg hdecimal
  simp only [number?, h.skipSign_text, hdigits, hmark, hends.1, hnumeral, Bool.false_eq_true,
    if_false]
  by_cases hlt : numeral.magnitude < 2 ^ 32
  · rw [if_pos hlt, if_pos hlt]
    rfl
  · rw [if_neg hlt, if_neg hlt]

end Numeral

/-- What was read as a number is a numeral of less than `2 ^ 32`. -/
theorem exists_numeral_of_number? {text rest : List Char} {value : UInt32}
    (h : number? text = some (value, rest)) :
    ∃ (numeral : Numeral) (after : List Char), text = numeral.text ++ after ∧
      numeral.WellFormed ∧ numeral.EndsBefore after ∧ numeral.magnitude < 2 ^ 32 ∧
      value = numeral.word ∧ rest = skipSpaces after := by
  obtain ⟨negative, unsigned, hsign⟩ : ∃ negative unsigned, skipSign text = (negative, unsigned) :=
    ⟨_, _, rfl⟩
  obtain ⟨mark, after, hmark, htail, hskip⟩ := exists_mark (unsigned.dropWhile isHexDigit)
  have htext := append_skipSign text
  have hsplit : unsigned.takeWhile isHexDigit ++ unsigned.dropWhile isHexDigit = unsigned :=
    List.takeWhile_append_dropWhile
  have hstop := not_startsWith_dropWhile isHexDigit unsigned
  simp only [hsign] at htext
  simp only [number?, hsign, hskip] at h
  split at h
  · cases h
  next hstart =>
  split at h
  · cases h
  next word hnumeral =>
  obtain ⟨hne, hdecimal, hvalue⟩ := numeral?_eq_some hnumeral
  cases h
  refine ⟨⟨negative, unsigned.takeWhile isHexDigit, mark⟩, after, ?_, ⟨hne, ?_, ?_, hmark⟩,
    ⟨by simpa using hstart, ?_⟩, ?_, ?_, rfl⟩
  · simp only [Numeral.text, List.append_assoc]
    rw [← htail, hsplit, htext]
  · exact fun c hc => List.all_eq_true.1 List.all_takeWhile c hc
  · rintro rfl
    exact hdecimal rfl
  · rintro rfl
    rw [Option.toList_none, List.nil_append] at htail
    rw [htail] at hstop
    exact not_startsWith_of_imp (fun _ => isHexDigit_of_isDigit) hstop
  · rw [Numeral.magnitude, hvalue]
    exact word.toNat_lt
  · simp only [Numeral.word, Numeral.magnitude]
    rw [hvalue, UInt32.ofNat_toNat]

/-- A number is read from the texts that start with a numeral of less than `2 ^ 32`. -/
theorem number?_eq_some_iff {text rest : List Char} {value : UInt32} :
    number? text = some (value, rest) ↔
      ∃ (numeral : Numeral) (after : List Char), text = numeral.text ++ after ∧
        numeral.WellFormed ∧ numeral.EndsBefore after ∧ numeral.magnitude < 2 ^ 32 ∧
        value = numeral.word ∧ rest = skipSpaces after := by
  refine ⟨exists_numeral_of_number?, ?_⟩
  rintro ⟨numeral, after, rfl, hformed, hends, hlt, rfl, rfl⟩
  rw [hformed.number?_text hends, if_pos hlt]

end X86Listing
