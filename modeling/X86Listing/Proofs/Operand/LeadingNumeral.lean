import X86Listing.Proofs.Operand.Numeral
import X86Listing.Proofs.Operand.Position
import X86Listing.Proofs.Text.Digits

/-!
# The numeral at the front of a text

Every text starts with exactly one numeral in the sense of `Numeral.Leads`: a minus sign if
there is one, then as many hexadecimal digits as there are, then a mark if one comes next.  It
may be empty.  `Numeral.Leads.number?_eq` says what is read from the text by way of this
numeral, and `Numeral.exists_leads` and `Numeral.Leads.unique` that there is exactly one.

So a number is read exactly if the numeral is well formed, ends before a letter or `_`, and is
below `2 ^ 32`.  Every word is read back from its decimal and its hexadecimal digits
(`number?_toDigits`, `number?_toHexDigits`), with any zeros in front.
-/

namespace X86Listing

open Text (isSpace isHexDigit ofDigits lower)

/-! ## The numeral in front -/

/-- The text starts with the numeral: a minus sign if there is one, then as many hexadecimal
digits as there are, then a mark if one comes next.  Behind it is the text `after`. -/
structure Numeral.Leads (numeral : Numeral) (text after : List Char) : Prop where
  text_eq : text = numeral.text ++ after
  sign_taken : numeral.negative = false → startsWith (· == '-') text = false
  isHexDigit : ∀ c ∈ numeral.digits, isHexDigit c = true
  digits_taken : startsWith Text.isHexDigit (numeral.mark.toList ++ after) = false
  mark_eq : ∀ c ∈ numeral.mark, c = 'h' ∨ c = 'H'
  mark_taken : numeral.mark = none → startsWith (fun c => c == 'h' || c == 'H') after = false

namespace Numeral

variable {numeral : Numeral} {text after : List Char}

/-- The numeral stands for a word: it has digits, decimal ones unless it has a mark, neither a
letter nor `_` follows, and its value is below `2 ^ 32`. -/
def IsLiteral (numeral : Numeral) (after : List Char) : Prop :=
  numeral.digits ≠ [] ∧ startsWith startsIdentifier after = false ∧
    (numeral.mark = none → ∀ c ∈ numeral.digits, c.isDigit = true) ∧
    numeral.magnitude < 2 ^ 32

theorem skipSign_of_not_startsWith (h : startsWith (· == '-') text = false) :
    skipSign text = (false, text) := by
  cases text with
  | nil => rfl
  | cons c text => exact skipSign_of_ne (by simpa [startsWith] using h) text

theorem skipMark_of_not_startsWith (h : startsWith (fun c => c == 'h' || c == 'H') text = false) :
    skipMark text = (false, text) := by
  rcases skipMark_cases text with ⟨mark, rest, rfl, rfl | rfl, -⟩ | hskip
  · cases h
  · cases h
  · exact hskip

namespace Leads

theorem skipSign_eq (h : numeral.Leads text after) :
    skipSign text = (numeral.negative, numeral.digits ++ (numeral.mark.toList ++ after)) := by
  have htext := h.text_eq
  unfold Numeral.text at htext
  cases hsign : numeral.negative with
  | true =>
    rw [hsign] at htext
    simp [htext, skipSign, skipChar?]
  | false =>
    rw [skipSign_of_not_startsWith (h.sign_taken hsign), htext, hsign]
    simp

theorem skipMark_eq (h : numeral.Leads text after) :
    skipMark (numeral.mark.toList ++ after) = (numeral.mark.isSome, after) := by
  cases hmark : numeral.mark with
  | none => exact skipMark_of_not_startsWith (h.mark_taken hmark)
  | some mark => rcases h.mark_eq mark hmark with rfl | rfl <;> rfl

/-- What is read depends on the numeral in front only. -/
theorem number?_eq (h : numeral.Leads text after) :
    number? text =
      if startsWith startsIdentifier after then none
      else (numeral? numeral.mark.isSome numeral.digits).map fun value =>
        (if numeral.negative then -value else value, skipSpaces after) := by
  have htake : (numeral.digits ++ (numeral.mark.toList ++ after)).takeWhile Text.isHexDigit =
      numeral.digits := takeWhile_run h.isHexDigit h.digits_taken
  have hdrop : (numeral.digits ++ (numeral.mark.toList ++ after)).dropWhile Text.isHexDigit =
      numeral.mark.toList ++ after := dropWhile_run h.isHexDigit h.digits_taken
  simp only [number?, h.skipSign_eq, htake, hdrop, h.skipMark_eq]
  split
  · rfl
  · cases numeral? numeral.mark.isSome numeral.digits <;> rfl

/-- There is one numeral in front. -/
theorem unique {numeral' : Numeral} {after' : List Char} (h : numeral.Leads text after)
    (k : numeral'.Leads text after') : numeral = numeral' ∧ after = after' := by
  have hsign := h.skipSign_eq.symm.trans k.skipSign_eq
  obtain ⟨hnegative, hunsigned⟩ := Prod.mk.inj hsign
  have hdigits : numeral.digits = numeral'.digits := by
    rw [← takeWhile_run h.isHexDigit h.digits_taken, hunsigned,
      takeWhile_run k.isHexDigit k.digits_taken]
  rw [hdigits, List.append_cancel_left_eq] at hunsigned
  have hmark := h.skipMark_eq
  rw [hunsigned, k.skipMark_eq] at hmark
  obtain ⟨hsome, rfl⟩ := Prod.mk.inj hmark
  have hmark' : numeral.mark = numeral'.mark := by
    simpa using congrArg List.head? (List.append_cancel_right hunsigned)
  refine ⟨?_, rfl⟩
  cases numeral
  cases numeral'
  cases hnegative
  cases hdigits
  cases hmark'
  rfl

end Leads

/-- Every text starts with a numeral, which may be empty. -/
theorem exists_leads (text : List Char) : ∃ numeral after, Leads numeral text after := by
  have hstop := not_startsWith_dropWhile Text.isHexDigit (skipSign text).2
  obtain ⟨mark, after, hmark, htail, hskip⟩ :=
    exists_mark ((skipSign text).2.dropWhile Text.isHexDigit)
  refine ⟨⟨(skipSign text).1, (skipSign text).2.takeWhile Text.isHexDigit, mark⟩, after,
    ⟨?_, ?_, fun c hc => List.mem_takeWhile_imp hc, htail ▸ hstop, hmark, ?_⟩⟩
  · simp only [Numeral.text, List.append_assoc, ← htail, List.takeWhile_append_dropWhile]
    exact (append_skipSign text).symm
  · intro hsign
    cases text with
    | nil => rfl
    | cons c text =>
      by_contra hminus
      have hc : c = '-' := by simpa [startsWith] using hminus
      rw [hc, skipSign, skipChar?, if_pos rfl] at hsign
      cases hsign
  · rintro rfl
    cases after with
    | nil => rfl
    | cons c after =>
      by_contra hletter
      have hc : c = 'h' ∨ c = 'H' := by simpa [startsWith, or_iff_not_imp_left] using hletter
      rw [htail, Option.toList_none, List.nil_append] at hskip
      rcases hc with rfl | rfl <;> cases hskip

/-- A literal is read as its word, and nothing else is read. -/
theorem Leads.number?_eq_some_iff {value : UInt32} {rest : List Char}
    (h : numeral.Leads text after) :
    number? text = some (value, rest) ↔
      numeral.IsLiteral after ∧ value = numeral.word ∧ rest = skipSpaces after := by
  rw [h.number?_eq]
  constructor
  · intro hread
    split at hread
    · cases hread
    next hstart =>
    obtain ⟨word, hword, hpair⟩ := Option.map_eq_some_iff.1 hread
    obtain ⟨hne, hdecimal, hvalue⟩ := numeral?_eq_some hword
    cases hpair
    refine ⟨⟨hne, by simpa using hstart, fun hmark => hdecimal (by rw [hmark]; rfl), ?_⟩, ?_, rfl⟩
    · rw [magnitude, hvalue]
      exact word.toNat_lt
    · rw [Numeral.word, magnitude, hvalue, UInt32.ofNat_toNat]
  · rintro ⟨⟨hne, hstart, hdecimal, hlt⟩, rfl, rfl⟩
    have hdigits : numeral.mark.isSome = true ∨ ∀ c ∈ numeral.digits, c.isDigit = true := by
      cases hmark : numeral.mark with
      | none => exact Or.inr (hdecimal hmark)
      | some mark => exact Or.inl rfl
    have hword : numeral? numeral.mark.isSome numeral.digits =
        some (UInt32.ofNat numeral.magnitude) :=
      numeral?_of_value hne hdigits (UInt32.toNat_ofNat_of_lt' hlt).symm
    rw [hstart, hword]
    rfl

end Numeral

/-! ## Written words -/

/-- A word is read back from its decimal digits. -/
theorem number?_toDigits (value : UInt32) (zeros : Nat) {rest : List Char}
    (hrest : startsWith continuesIdentifier rest = false) :
    number? (List.replicate zeros '0' ++ Nat.toDigits 10 value.toNat ++ rest) =
      some (value, skipSpaces rest) := by
  refine number?_of_literal (.decimal ?_ ?_ ?_) hrest
  · simp [Nat.toDigits_ne_nil]
  · intro c hc
    rcases List.mem_append.1 hc with hc | hc
    · rw [List.eq_of_mem_replicate hc]
      rfl
    · exact Nat.isDigit_of_mem_toDigits (by decide) (by decide) hc
  · rw [Text.ofDigits_zeros, Text.ofDigits_toDigits (by decide) (by decide)]

/-- A word is read back from its hexadecimal digits in either case, with a mark behind them. -/
theorem number?_toHexDigits (value : UInt32) (zeros : Nat) {digits rest : List Char} {mark : Char}
    (hdigits : lower digits = Nat.toDigits 16 value.toNat) (hmark : mark = 'h' ∨ mark = 'H')
    (hrest : startsWith startsIdentifier rest = false) :
    number? (List.replicate zeros '0' ++ digits ++ mark :: rest) =
      some (value, skipSpaces rest) := by
  have hne : digits ≠ [] := by
    rintro rfl
    exact Nat.toDigits_ne_nil hdigits.symm
  have hhex : ∀ c ∈ lower digits, isHexDigit c = true := by
    rw [hdigits]
    exact fun c => Text.isHexDigit_of_mem_toDigits (by decide) (by decide)
  have hvalue : ofDigits 16 (List.replicate zeros '0' ++ digits) = value.toNat := by
    rw [Text.ofDigits_zeros, ← Text.ofDigits_lower 16 hhex, hdigits,
      Text.ofDigits_toDigits (by decide) (by decide)]
  let numeral : Numeral := ⟨false, List.replicate zeros '0' ++ digits, some mark⟩
  have hformed : numeral.WellFormed := by
    refine ⟨by simp [numeral, hne], fun c hc => ?_, by simp [numeral], by simpa [numeral]⟩
    rcases List.mem_append.1 hc with hc | hc
    · rw [List.eq_of_mem_replicate hc]
      rfl
    · exact (Text.digitValue_toLower (hhex _ (List.mem_map_of_mem hc))).1
  have hends : numeral.EndsBefore rest := ⟨hrest, by simp [numeral]⟩
  have hread := hformed.number?_text hends
  have hmagnitude : numeral.magnitude = value.toNat := hvalue
  rw [if_pos (by rw [hmagnitude]; exact value.toNat_lt), Numeral.word, hmagnitude,
    UInt32.ofNat_toNat] at hread
  simpa [numeral, Numeral.text] using hread

/-! ## Numbers at the start of a line -/

theorem Numeral.toNat_word_eq_ite {numeral : Numeral} (h : numeral.magnitude < 2 ^ 32) :
    numeral.word.toNat =
      if numeral.negative then (2 ^ 32 - numeral.magnitude) % 2 ^ 32 else numeral.magnitude := by
  have hword : (UInt32.ofNat numeral.magnitude).toNat = numeral.magnitude :=
    UInt32.toNat_ofNat_of_lt' h
  rw [Numeral.word]
  split
  · rw [UInt32.toNat_neg, hword]
  · exact hword

namespace Cursor

variable {text : List Char} {value : UInt32} {cursor : Cursor}

/-- A number is read at the start of a line as it is read from the line. -/
theorem read_start_eq_some {α : Type} {reader : Reader α} {a : α} {front left : List Char}
    (hsplit : text = front ++ left) (h : reader text = some (a, left)) :
    (start text).read reader = some (a, between front left) := by
  subst hsplit
  rw [start_eq_between]
  exact read_between h

/-- Every line starts with one numeral.  It is read exactly if it is a literal, as its value or
the negation of its value modulo `2 ^ 32`, and the cursor then stands behind the literal and the
spaces that follow.  Every word is read back from its digits, with any zeros in front. -/
theorem read_number?_start :
    (∀ text, ∃! parts : Numeral × List Char, parts.1.Leads text parts.2) ∧
    (∀ (text : List Char) (numeral : Numeral) (after : List Char), numeral.Leads text after →
      ∀ value cursor, (start text).read number? = some (value, cursor) ↔
        (numeral.digits ≠ [] ∧ startsWith startsIdentifier after = false ∧
          (numeral.mark = none → ∀ c ∈ numeral.digits, c.isDigit = true) ∧
          numeral.magnitude < 2 ^ 32) ∧
        value.toNat = (if numeral.negative then (2 ^ 32 - numeral.magnitude) % 2 ^ 32
          else numeral.magnitude) ∧
        cursor = between (numeral.text ++ after.takeWhile isSpace) (skipSpaces after)) ∧
    (∀ (value : UInt32) (zeros : Nat) (rest : List Char),
      startsWith continuesIdentifier rest = false →
      number? (List.replicate zeros '0' ++ Nat.toDigits 10 value.toNat ++ rest) =
        some (value, skipSpaces rest)) ∧
    ∀ (value : UInt32) (zeros : Nat) (digits rest : List Char) (mark : Char),
      lower digits = Nat.toDigits 16 value.toNat → (mark = 'h' ∨ mark = 'H') →
      startsWith startsIdentifier rest = false →
      number? (List.replicate zeros '0' ++ digits ++ mark :: rest) =
        some (value, skipSpaces rest) := by
  refine ⟨fun text => ?_, fun text numeral after h value cursor => ?_,
    fun value zeros rest => number?_toDigits value zeros,
    fun value zeros digits rest mark => number?_toHexDigits value zeros⟩
  · obtain ⟨numeral, after, h⟩ := Numeral.exists_leads text
    refine ⟨(numeral, after), h, fun parts k => ?_⟩
    obtain ⟨hnumeral, hafter⟩ := k.unique h
    exact Prod.ext hnumeral hafter
  · have hsplit : text = (numeral.text ++ after.takeWhile isSpace) ++ skipSpaces after := by
      rw [List.append_assoc, skipSpaces, List.takeWhile_append_dropWhile]
      exact h.text_eq
    constructor
    · intro hread
      cases hnumber : number? text with
      | none =>
        rw [start_eq_between, read_between_eq_none hnumber] at hread
        cases hread
      | some found =>
        obtain ⟨word, left⟩ := found
        obtain ⟨hliteral, rfl, rfl⟩ := h.number?_eq_some_iff.1 hnumber
        rw [read_start_eq_some hsplit hnumber] at hread
        cases hread
        exact ⟨hliteral, Numeral.toNat_word_eq_ite hliteral.2.2.2, rfl⟩
    · rintro ⟨hliteral, hvalue, rfl⟩
      rw [← Numeral.toNat_word_eq_ite hliteral.2.2.2, UInt32.toNat_inj] at hvalue
      exact read_start_eq_some hsplit (h.number?_eq_some_iff.2 ⟨hliteral, hvalue, rfl⟩)

/-- The largest word, negated, with a zero in front and spaces behind.  The next numeral after
it is not read. -/
theorem read_number?_start_largest :
    Numeral.Leads ⟨true, "0FFFFFFFF".toList, some 'h'⟩ "-0FFFFFFFFh \t, 1".toList
        " \t, 1".toList ∧
      (start "-0FFFFFFFFh \t, 1".toList).read number? =
        some (1, between "-0FFFFFFFFh \t".toList ", 1".toList) ∧
      number? "004294967295 ]".toList = some (4294967295, "]".toList) ∧
      number? "00ffFFffffH]".toList = some (4294967295, "]".toList) := by
  obtain ⟨-, hread, hdecimal, hhexadecimal⟩ := read_number?_start
  have hleads : Numeral.Leads ⟨true, "0FFFFFFFF".toList, some 'h'⟩ "-0FFFFFFFFh \t, 1".toList
      " \t, 1".toList :=
    ⟨by decide, by decide, by simp [isHexDigit], by decide, by simp, by decide⟩
  have hmagnitude : Numeral.magnitude ⟨true, "0FFFFFFFF".toList, some 'h'⟩ = 4294967295 := by
    simp [Numeral.magnitude, ofDigits, Text.digitValue_eq]
  refine ⟨hleads, (hread _ _ _ hleads _ _).2 ⟨⟨by decide, by decide, by decide, ?_⟩, ?_,
    by decide⟩, ?_, ?_⟩
  · rw [hmagnitude]
    decide
  · rw [hmagnitude]
    decide
  · exact hdecimal 4294967295 2 " ]".toList (by decide)
  · exact hhexadecimal 4294967295 2 "ffFFffff".toList "]".toList 'H' (by decide) (Or.inr rfl)
      (by decide)

end Cursor

end X86Listing
