import X86Listing.Proofs.Operand.Names

/-!
# Declared names

A value is a number, a local or a label, and it is read as the first of these that fits.
An identifier is meant to be a name, but the hexadecimal digits and their mark are letters
too.  `NumeralFront` says that an identifier starts with a numeral: `each` is the number
`0each`, and `ah1` is the number `0ah` with a `1` behind it.

* `number?_name` says that these are the only identifiers from which a number is read.
* `Symbols.local?_name` and `Symbols.offset?_end` read any other identifier.
* `Symbols.value?_name` puts them together: an identifier is read as what it is declared
  as, unless it starts with a numeral.
-/

namespace X86Listing

open Text (isSpace isHexDigit ofDigits)

/-! ## Definitions -/

/-- The identifier starts with hexadecimal digits and their mark, and no letter and no `_`
comes next.  The digits stand for `value`, and `tail` is what is left of the identifier. -/
def NumeralFront (value : UInt32) (tail name : List Char) : Prop :=
  ∃ digits mark, name = digits ++ mark :: tail ∧ digits ≠ [] ∧
    (∀ c ∈ digits, isHexDigit c = true) ∧ (mark = 'h' ∨ mark = 'H') ∧
    startsWith startsIdentifier tail = false ∧ ofDigits 16 digits = value.toNat

/-- What a name is declared as.  A local hides a label, and a label of the code hides one
of the data. -/
def Symbols.declared? (symbols : Symbols) (name : String) : Option UInt32 :=
  (symbols.locals.get? name).or ((symbols.labels.get? name).or (symbols.data.address? name))

/-! ## Numbers in front of names -/

theorem atMark_nil : AtMark [] := by
  intro c tail h
  cases h

theorem IsIdentifier.exists_cons {name : List Char} (h : IsIdentifier name) :
    ∃ c tail, name = c :: tail ∧ startsIdentifier c = true := by
  obtain ⟨c, tail, rfl⟩ := List.exists_cons_of_ne_nil h.ne_nil
  exact ⟨c, tail, rfl, h.1⟩

theorem not_isDigit_of_startsIdentifier {c : Char} (h : startsIdentifier c = true) :
    c.isDigit = false := by
  by_contra hdigit
  have hletter : c.isAlpha = false := not_isAlpha_of_isDigit (by simpa using hdigit)
  have hunderscore : c = '_' := by simpa [startsIdentifier, hletter] using h
  subst hunderscore
  exact hdigit rfl

/-- What goes on with an identifier and does not start one is a digit. -/
theorem isDigit_of_continuesIdentifier {c : Char} (h : continuesIdentifier c = true)
    (hstart : startsIdentifier c = false) : c.isDigit = true := by
  simp only [startsIdentifier, Bool.or_eq_false_iff] at hstart
  simpa [continuesIdentifier, Char.isAlphanum, hstart.1, hstart.2] using h

theorem skipSign_name {name : List Char} (hname : IsIdentifier name) :
    skipSign name = (false, name) := by
  obtain ⟨c, tail, rfl, hc⟩ := hname.exists_cons
  have hsign : c ≠ '-' := by
    rintro rfl
    cases hc
  simp [skipSign, skipChar?, hsign]

theorem numeral?_eq_some {marked : Bool} {digits : List Char} {value : UInt32}
    (h : numeral? marked digits = some value) :
    digits ≠ [] ∧ (marked = false → ∀ c ∈ digits, c.isDigit = true) ∧
      ofDigits (if marked then 16 else 10) digits = value.toNat := by
  rw [numeral?] at h
  split at h
  · cases h
  · next hdigits =>
    rw [not_or] at hdigits
    by_cases hlt : ofDigits (if marked then 16 else 10) digits < 2 ^ 32
    · simp only [if_pos hlt, Option.some.injEq] at h
      subst h
      refine ⟨hdigits.1, ?_, (UInt32.toNat_ofNat_of_lt' hlt).symm⟩
      rintro rfl
      simpa using hdigits.2
    · simp only [if_neg hlt] at h
      cases h

/-- What is left of an identifier behind hexadecimal digits starts with a letter or `_`. -/
theorem eq_nil_of_continuesIdentifier {rest : List Char}
    (h : ∀ c ∈ rest, continuesIdentifier c = true)
    (hstart : startsWith startsIdentifier rest = false)
    (hdigit : startsWith isHexDigit rest = false) : rest = [] := by
  cases rest with
  | nil => rfl
  | cons c rest =>
    have hc := isDigit_of_continuesIdentifier (h c List.mem_cons_self) hstart
    have hhex : isHexDigit c = false := hdigit
    rw [isHexDigit_of_isDigit hc] at hhex
    cases hhex

theorem skipMark_cases (text : List Char) :
    (∃ mark rest, text = mark :: rest ∧ (mark = 'h' ∨ mark = 'H') ∧
      skipMark text = (true, rest)) ∨ skipMark text = (false, text) := by
  unfold skipMark
  split
  · exact Or.inl ⟨_, _, rfl, Or.inl rfl, rfl⟩
  · exact Or.inl ⟨_, _, rfl, Or.inr rfl, rfl⟩
  · exact Or.inr rfl

theorem skipSpaces_of_continuesIdentifier {text : List Char}
    (h : ∀ c ∈ text, continuesIdentifier c = true) : skipSpaces text = text := by
  refine dropWhile_of_not_startsWith ?_
  cases text with
  | nil => rfl
  | cons c text => exact not_isSpace_of_continuesIdentifier (h c List.mem_cons_self)

/-- What a number without a sign was read from. -/
theorem number?_eq_some {text tail : List Char} {value : UInt32}
    (hsign : skipSign text = (false, text)) (h : number? text = some (value, tail)) :
    startsWith startsIdentifier (skipMark (text.dropWhile isHexDigit)).2 = false ∧
      numeral? (skipMark (text.dropWhile isHexDigit)).1 (text.takeWhile isHexDigit) =
        some value ∧
      skipSpaces (skipMark (text.dropWhile isHexDigit)).2 = tail := by
  simp only [number?, hsign] at h
  split at h
  · cases h
  next hstart =>
  cases hnumeral : numeral? (skipMark (text.dropWhile isHexDigit)).1
      (text.takeWhile isHexDigit) with
  | none =>
    rw [hnumeral] at h
    cases h
  | some found =>
    rw [hnumeral] at h
    obtain ⟨rfl, rfl⟩ : found = value ∧
        skipSpaces (skipMark (text.dropWhile isHexDigit)).2 = tail := by simpa using h
    exact ⟨by simpa using hstart, rfl, rfl⟩

/-- A number that is read from an identifier is a numeral in front of it. -/
theorem numeralFront_of_number? {name tail : List Char} {value : UInt32}
    (hname : IsIdentifier name) (h : number? name = some (value, tail)) :
    NumeralFront value tail name := by
  obtain ⟨hstart, hnumeral, rfl⟩ := number?_eq_some (skipSign_name hname) h
  obtain ⟨hne, hdecimal, hvalue⟩ := numeral?_eq_some hnumeral
  have hsplit : name.takeWhile isHexDigit ++ name.dropWhile isHexDigit = name :=
    List.takeWhile_append_dropWhile
  have hrest : ∀ c ∈ name.dropWhile isHexDigit, continuesIdentifier c = true := by
    intro c hc
    apply hname.2
    rw [← hsplit]
    exact List.mem_append_right _ hc
  rcases skipMark_cases (name.dropWhile isHexDigit) with ⟨mark, left, hmark, hletter, hskip⟩ |
      hskip
  · rw [hskip] at hstart hvalue ⊢
    have hleft : skipSpaces left = left := by
      apply skipSpaces_of_continuesIdentifier
      intro c hc
      apply hrest
      rw [hmark]
      exact List.mem_cons_of_mem _ hc
    refine ⟨_, mark, ?_, hne, ?_, hletter, ?_, hvalue⟩
    · show name = name.takeWhile isHexDigit ++ mark :: skipSpaces left
      rw [hleft, ← hmark, hsplit]
    · exact fun c hc => List.all_eq_true.1 List.all_takeWhile c hc
    · show startsWith startsIdentifier (skipSpaces left) = false
      rw [hleft]
      exact hstart
  · -- Without a mark the identifier would consist of decimal digits.
    rw [hskip] at hstart hdecimal
    have hnil : name.dropWhile isHexDigit = [] :=
      eq_nil_of_continuesIdentifier hrest hstart (not_startsWith_dropWhile isHexDigit name)
    obtain ⟨c, more, hcons, hc⟩ := hname.exists_cons
    have hmem : c ∈ name.takeWhile isHexDigit := by
      rw [hnil, List.append_nil] at hsplit
      rw [hsplit, hcons]
      exact List.mem_cons_self
    have hdigit := hdecimal rfl c hmem
    rw [not_isDigit_of_startsIdentifier hc] at hdigit
    cases hdigit

theorem NumeralFront.number?_eq {name tail : List Char} {value : UInt32}
    (h : NumeralFront value tail name) (hname : IsIdentifier name) :
    number? name = some (value, tail) := by
  obtain ⟨digits, mark, hsplit, hne, hdigits, hmark, hstart, hvalue⟩ := h
  have hnext : startsWith isHexDigit (mark :: tail) = false := by
    rcases hmark with rfl | rfl <;> rfl
  have hskip : skipMark (mark :: tail) = (true, tail) := by
    rcases hmark with rfl | rfl <;> rfl
  have hnumeral : numeral? true digits = some value := numeral?_of_value hne (Or.inl rfl) hvalue
  have hspaces : skipSpaces tail = tail := by
    apply skipSpaces_of_continuesIdentifier
    intro c hc
    apply hname.2
    rw [hsplit]
    exact List.mem_append_right _ (List.mem_cons_of_mem _ hc)
  simp only [number?, skipSign_name hname]
  rw [hsplit]
  simp only [takeWhile_run hdigits hnext, dropWhile_run hdigits hnext, hskip, hstart,
    hnumeral, hspaces]
  rfl

/-- A number is read from an identifier exactly if a numeral stands in front of it. -/
theorem number?_name {name tail : List Char} {value : UInt32} (hname : IsIdentifier name) :
    number? name = some (value, tail) ↔ NumeralFront value tail name :=
  ⟨numeralFront_of_number? hname, fun hfront => hfront.number?_eq hname⟩

/-! ## Locals and labels -/

namespace Symbols

/-- The name of a local is read up to the next mark. -/
theorem local?_name (symbols : Symbols) {name gap rest : List Char} (hname : IsIdentifier name)
    (hgap : ∀ c ∈ gap, isSpace c = true) (hrest : AtMark rest) :
    symbols.local? (name ++ (gap ++ rest)) =
      (symbols.locals.get? (String.ofList name)).map fun value => (value, rest) := by
  simp only [local?, identifier?_name hname hgap hrest]
  cases symbols.locals.get? (String.ofList name) <;> rfl

/-- An identifier with nothing behind it is not the word `short` before another one. -/
theorem skipShort_name {name : List Char} (hname : IsIdentifier name) : skipShort name = name := by
  rw [skipShort]
  cases hshort : keyword? "short".toList name with
  | none => rfl
  | some rest =>
    obtain ⟨keyword, after, rfl, -, hspace, -⟩ := keyword?_eq_some hshort
    cases after with
    | nil => cases hspace
    | cons c after =>
      have hc := not_isSpace_of_continuesIdentifier (hname.2 c (by simp))
      have hspace : isSpace c = true := hspace
      rw [hc] at hspace
      cases hspace

/-- An identifier at the end of a text is read as the label of that name. -/
theorem offset?_end (symbols : Symbols) {name : List Char} (hname : IsIdentifier name) :
    symbols.offset? name =
      (symbols.address? none (String.ofList name)).map fun value => (value, []) := by
  have hsegment : segment? (name ++ ([] ++ [])) = none :=
    segment?_name hname (by simp) atMark_nil
  have hread : identifier? (name ++ ([] ++ [])) = some (name, []) :=
    identifier?_name hname (by simp) atMark_nil
  rw [List.nil_append, List.append_nil] at hsegment hread
  simp only [offset?, skipSegment, hsegment, skipShort_name hname, hread]
  cases symbols.address? none (String.ofList name) <;> rfl

/-- An identifier is read as what it is declared as, and to its end.  The exception is an
identifier that starts with a numeral: it is read as that number, declared or not. -/
theorem value?_name (symbols : Symbols) {name : List Char} (hname : IsIdentifier name) :
    (∀ value tail, NumeralFront value tail name → symbols.value? name = some (value, tail)) ∧
      ((∀ value tail, ¬NumeralFront value tail name) →
        symbols.value? name =
          (symbols.declared? (String.ofList name)).map fun value => (value, [])) := by
  constructor
  · intro value tail hfront
    rw [value?, (number?_name hname).2 hfront, Option.some_or]
  · intro hfront
    have hnumber : number? name = none := by
      cases hread : number? name with
      | none => rfl
      | some found => exact absurd ((number?_name hname).1 hread) (hfront found.1 found.2)
    have hlocal : symbols.local? (name ++ ([] ++ [])) =
        (symbols.locals.get? (String.ofList name)).map fun value => (value, []) :=
      symbols.local?_name hname (by simp) atMark_nil
    rw [List.nil_append, List.append_nil] at hlocal
    rw [value?, hnumber, Option.none_or, hlocal, symbols.offset?_end hname, declared?]
    cases symbols.locals.get? (String.ofList name) <;> rfl

/-- Three declared names: two that start with a numeral, and one that does not. -/
def hexNames : Symbols where
  locals := NameMap.empty.insert "ah1" 8
  labels := (NameMap.empty.insert "each" codeBase).insert "dead_beef" (codeBase + 1)
  data := .new 0

/-- The label `each` and the local `ah1` cannot be reached by their names. -/
theorem value?_name_hexNames :
    hexNames.value? "each".toList = some (0xeac, []) ∧
      hexNames.value? "ah1".toList = some (10, ['1']) ∧
      hexNames.value? "dead_beef".toList = some (codeBase + 1, []) := by
  have heach : IsIdentifier "each".toList := ⟨rfl, by simp [continuesIdentifier]⟩
  have hah1 : IsIdentifier "ah1".toList := ⟨rfl, by simp [continuesIdentifier]⟩
  have hdead : IsIdentifier "dead_beef".toList := ⟨rfl, by simp [continuesIdentifier]⟩
  have hnone : ∀ value tail, ¬NumeralFront value tail "dead_beef".toList := by
    intro value tail hfront
    cases (number?_name hdead).2 hfront
  refine ⟨(hexNames.value?_name heach).1 _ _ ?_, (hexNames.value?_name hah1).1 _ _ ?_, ?_⟩
  · exact ⟨['e', 'a', 'c'], 'h', rfl, by simp, by simp [isHexDigit], Or.inl rfl, rfl, rfl⟩
  · exact ⟨['a'], 'h', rfl, by simp, by simp [isHexDigit], Or.inl rfl, rfl, rfl⟩
  · rw [(hexNames.value?_name hdead).2 hnone]
    decide +kernel

/-- Not every declared name is read as what it is declared as. -/
theorem not_value?_declared :
    ¬∀ (symbols : Symbols) (name : List Char) (value : UInt32), IsIdentifier name →
      symbols.declared? (String.ofList name) = some value →
        symbols.value? name = some (value, []) := by
  intro h
  have heach : IsIdentifier "each".toList := ⟨rfl, by simp [continuesIdentifier]⟩
  have hread := h hexNames "each".toList codeBase heach (by decide +kernel)
  exact absurd hread (by decide +kernel)

end Symbols

end X86Listing
