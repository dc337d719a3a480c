import X86Listing.Proofs.Operand.Run
import X86Listing.Proofs.Text.NameTable

/-!
# Readers on spelled tokens

A reader that stands before a spelling of its token reads that token and stops
before the next one.

* `Spells.eq_mark`, `Spells.skipCommas_eq`, `Spells.register?_eq`,
  `Spells.number?_eq` and `Spells.identifier?_eq`: one fact for each kind of token.
* `register?_eq_none` and `register?_eq_none_iff`: what is no register.
* `Spells.exists_digit` and `Spells.not_startsWith_mark`: how a text starts, which
  keeps the other readers from answering.

A register, a number and a name go on as far as letters and digits do, so a mark has
to come next, or nothing.  `Bounded` is that condition on the tokens behind, and
`Spells.atMark` what it comes to in the text.
-/

namespace X86Listing

open Text (isSpace isHexDigit ofDigits SameLetters findIgnoreCase?)

/-! ## Registers -/

/-- The name of a spelled register stands in the table. -/
theorem Reg.mem_spellings {reg : Reg} (h : reg.IsSpelled) : (reg.name, reg) ∈ spellings := by
  obtain ⟨name, hmem⟩ := h
  have hall : ∀ entry ∈ spellings.toList, (entry.2.name, entry.2) ∈ spellings.toList := by
    decide +kernel
  exact Array.mem_toList_iff.1 (hall (name, reg) hmem.val)

theorem Reg.isAlpha_of_mem_spellings {name : String} {reg : Reg}
    (h : (name, reg) ∈ spellings) : name.toList ≠ [] ∧ ∀ c ∈ name.toList, c.isAlpha = true := by
  have hall : ∀ entry ∈ spellings.toList,
      entry.1.toList ≠ [] ∧ ∀ c ∈ entry.1.toList, c.isAlpha = true := by simp [spellings]
  exact hall (name, reg) h.val

theorem Reg.isAlpha_name (reg : Reg) :
    reg.name.toList ≠ [] ∧ ∀ c ∈ reg.name.toList, c.isAlpha = true := by
  unfold Reg.name
  split
  · next name found hfind =>
    exact isAlpha_of_mem_spellings (Array.mem_toList_iff.1 (List.mem_of_find?_eq_some hfind))
  · simp

theorem Reg.increasing_spellings : Text.Increasing spellings := by
  decide +kernel

/-- A word of letters that spells a register is read as that register. -/
theorem register?_of_mem {name : String} {reg : Reg} {word rest : List Char}
    (hmem : (name, reg) ∈ Reg.spellings) (hword : SameLetters name.toList word)
    (hrest : startsWith continuesIdentifier rest = false) :
    register? (word ++ rest) = some (reg, skipSpaces rest) := by
  obtain ⟨hne, hname⟩ := Reg.isAlpha_of_mem_spellings hmem
  have hletters := all_isAlpha_of_sameLetters hname hword
  have hnext : startsWith Char.isAlpha rest = false :=
    not_startsWith_of_imp (fun _ => continuesIdentifier_of_isAlpha) hrest
  have hfind := Text.findIgnoreCase?_of_mem Reg.increasing_spellings hmem hword
  simp only [register?, takeWhile_run hletters hnext, dropWhile_run hletters hnext, hfind]
  rw [if_neg]
  rintro (hnil | hstart)
  · exact ne_nil_of_sameLetters hne hword hnil
  · rw [hrest] at hstart
    cases hstart

/-- What is read as a register is a whole word. -/
theorem register?_eq_some {reg : Reg} {text rest : List Char}
    (h : register? text = some (reg, rest)) :
    ∃ name word after, (name, reg) ∈ Reg.spellings ∧ SameLetters name.toList word ∧
      text = word ++ after ∧ startsWith continuesIdentifier after = false := by
  unfold register? at h
  simp only at h
  split at h
  · cases h
  · next hword =>
    split at h
    · cases h
    · next reg' hfind =>
      cases h
      obtain ⟨name, hmem, hname⟩ := Text.mem_of_findIgnoreCase? hfind
      exact ⟨name, _, _, hmem, hname, List.takeWhile_append_dropWhile.symm,
        by simpa using fun hstart => hword (Or.inr hstart)⟩

theorem isIdentifier_of_identifier? {text target rest : List Char}
    (h : identifier? text = some (target, rest)) : IsIdentifier target := by
  unfold identifier? at h
  split at h
  · next hstart =>
    cases h
    refine ⟨?_, fun c hc => List.all_eq_true.1 List.all_takeWhile c hc⟩
    cases text with
    | nil => cases hstart
    | cons c text =>
      have hc : continuesIdentifier c = true := continuesIdentifier_of_startsIdentifier hstart
      rw [List.takeWhile_cons_of_pos hc]
      exact hstart
  · cases h

/-- A name is read as a register exactly if it spells one. -/
theorem register?_eq_none_iff {text target rest : List Char}
    (h : identifier? text = some (target, rest)) :
    register? text = none ↔ ¬SpellsRegister target := by
  have htarget : target = text.takeWhile continuesIdentifier := by
    unfold identifier? at h
    split at h
    · cases h
      rfl
    · cases h
  constructor
  · rintro hnone ⟨name, reg, hmem, hname⟩
    have hread := register?_of_mem hmem hname (not_startsWith_dropWhile continuesIdentifier text)
    rw [htarget, List.takeWhile_append_dropWhile, hnone] at hread
    cases hread
  · intro hspells
    cases hread : register? text with
    | none => rfl
    | some found =>
      obtain ⟨reg, after⟩ := found
      obtain ⟨name, word, after, hmem, hname, rfl, hnext⟩ := register?_eq_some hread
      have hletters := all_isAlpha_of_sameLetters (Reg.isAlpha_of_mem_spellings hmem).2 hname
      have hword : (word ++ after).takeWhile continuesIdentifier = word :=
        takeWhile_run (fun c hc => continuesIdentifier_of_isAlpha (hletters c hc)) hnext
      rw [htarget, hword] at hspells
      exact absurd ⟨name, reg, hmem, hname⟩ hspells

theorem register?_eq_none {text : List Char} (h : startsWith Char.isAlpha text = false) :
    register? text = none := by
  simp [register?, takeWhile_of_not_startsWith h]

/-! ## Numbers -/

theorem skipSign_of_digit {c : Char} (hc : c.isDigit = true) (text : List Char) :
    skipSign (c :: text) = (false, c :: text) := by
  have hne : c ≠ '-' := by
    rintro rfl
    cases hc
  simp [skipSign, skipChar?, hne]

theorem skipMark_of_not_continues {text : List Char}
    (h : startsWith continuesIdentifier text = false) : skipMark text = (false, text) := by
  unfold skipMark
  split
  · cases h
  · cases h
  · rfl

theorem numeral?_of_value {marked : Bool} {digits : List Char} {value : UInt32}
    (hne : digits ≠ []) (hdigits : marked = true ∨ ∀ c ∈ digits, c.isDigit = true)
    (hvalue : ofDigits (if marked then 16 else 10) digits = value.toNat) :
    numeral? marked digits = some value := by
  have hlt : value.toNat < 2 ^ 32 := value.toNat_lt
  rw [numeral?, if_neg]
  · simp only [hvalue, if_pos hlt, UInt32.ofNat_toNat]
  · rintro (hnil | ⟨hmarked, hall⟩)
    · exact hne hnil
    · rcases hdigits with rfl | hdigits
      · cases hmarked
      · rw [List.all_eq_true.2 hdigits] at hall
        cases hall

/-- The spelling of a number is read as that number. -/
theorem number?_of_literal {value : UInt32} {word rest : List Char} (hword : Literal value word)
    (hrest : startsWith continuesIdentifier rest = false) :
    number? (word ++ rest) = some (value, skipSpaces rest) := by
  have hstarts : startsWith startsIdentifier rest = false :=
    not_startsWith_of_imp (fun _ => continuesIdentifier_of_startsIdentifier) hrest
  cases hword with
  | decimal hne hdigits hvalue =>
    obtain ⟨c, digits, rfl⟩ := List.exists_cons_of_ne_nil hne
    have hhex : ∀ d ∈ c :: digits, isHexDigit d = true :=
      fun d hd => isHexDigit_of_isDigit (hdigits d hd)
    have hnext : startsWith isHexDigit rest = false :=
      not_startsWith_of_imp (fun _ => continuesIdentifier_of_isHexDigit) hrest
    have hsign : skipSign (c :: digits ++ rest) = (false, c :: digits ++ rest) :=
      skipSign_of_digit (hdigits c List.mem_cons_self) _
    have hnumeral : numeral? false (c :: digits) = some value :=
      numeral?_of_value hne (Or.inr hdigits) hvalue
    simp only [number?, hsign, takeWhile_run hhex hnext, dropWhile_run hhex hnext,
      skipMark_of_not_continues hrest, hstarts, hnumeral]
    rfl
  | @hexadecimal first mark digits hfirst hdigits hmark hvalue =>
    have hhex : ∀ d ∈ first :: digits, isHexDigit d = true := by
      intro d hd
      rcases List.mem_cons.1 hd with rfl | hd
      · exact isHexDigit_of_isDigit hfirst
      · exact hdigits d hd
    have hnext : startsWith isHexDigit (mark :: rest) = false := by
      rcases hmark with rfl | rfl <;> rfl
    have hmark' : skipMark (mark :: rest) = (true, rest) := by
      rcases hmark with rfl | rfl <;> rfl
    have hsign : skipSign (first :: digits ++ mark :: rest) =
        (false, first :: digits ++ mark :: rest) := skipSign_of_digit hfirst _
    have hsplit : first :: digits ++ [mark] ++ rest = first :: digits ++ mark :: rest := by
      simp
    have hnumeral : numeral? true (first :: digits) = some value :=
      numeral?_of_value (by simp) (Or.inl rfl) hvalue
    rw [hsplit]
    simp only [number?, hsign, takeWhile_run hhex hnext, dropWhile_run hhex hnext, hmark',
      hstarts, hnumeral]
    rfl

theorem Literal.exists_digit {value : UInt32} {word : List Char} (h : Literal value word) :
    ∃ c tail, word = c :: tail ∧ c.isDigit = true := by
  cases h with
  | decimal hne hdigits =>
    obtain ⟨c, digits, rfl⟩ := List.exists_cons_of_ne_nil hne
    exact ⟨c, digits, rfl, hdigits c List.mem_cons_self⟩
  | hexadecimal hfirst => exact ⟨_, _, rfl, hfirst⟩

/-! ## Names -/

/-- A name is read up to where it does not go on. -/
theorem identifier?_append {name rest : List Char} (hname : IsIdentifier name)
    (hrest : startsWith continuesIdentifier rest = false) :
    identifier? (name ++ rest) = some (name, skipSpaces rest) := by
  rw [identifier?, startsWith_append hname.ne_nil, if_pos hname.1, takeWhile_run hname.2 hrest,
    dropWhile_run hname.2 hrest]

theorem identifier?_name {name gap rest : List Char} (hname : IsIdentifier name)
    (hgap : ∀ c ∈ gap, isSpace c = true) (hrest : AtMark rest) :
    identifier? (name ++ (gap ++ rest)) = some (name, rest) := by
  rw [identifier?_append hname (hrest.not_startsWith_gap hgap),
    skipSpaces_run hgap hrest.not_startsWith_isSpace]

/-! ## Lists of tokens -/

/-- The next token of a list is a mark, if there is one. -/
def Bounded : List Token → Prop
  | .mark _ :: _ => True
  | [] => True
  | _ => False

/-- A token is spelled as a word or as a mark. -/
theorem Token.Spelled.head {token : Token} {word : List Char} (h : token.Spelled word) :
    ∃ c tail, word = c :: tail ∧
      (continuesIdentifier c = true ∨ c ∈ marks ∧ token = .mark c) := by
  cases h with
  | @reg reg _ hword =>
    obtain ⟨hne, hletters⟩ := Reg.isAlpha_name reg
    obtain ⟨c, tail, rfl⟩ := List.exists_cons_of_ne_nil (ne_nil_of_sameLetters hne hword)
    have hc := all_isAlpha_of_sameLetters hletters hword c List.mem_cons_self
    exact ⟨c, tail, rfl, Or.inl (continuesIdentifier_of_isAlpha hc)⟩
  | number hword =>
    obtain ⟨c, tail, rfl, hc⟩ := hword.exists_digit
    exact ⟨c, tail, rfl, Or.inl (continuesIdentifier_of_isDigit hc)⟩
  | mark hmark => exact ⟨_, [], rfl, Or.inr ⟨hmark, rfl⟩⟩
  | @name target hname =>
    obtain ⟨c, tail, htarget⟩ := List.exists_cons_of_ne_nil hname.ne_nil
    rw [htarget] at hname ⊢
    exact ⟨c, tail, rfl, Or.inl (hname.2 c List.mem_cons_self)⟩

namespace Spells

variable {tokens : List Token} {text gap rest : List Char}

theorem not_startsWith_isSpace (h : Spells tokens text) : startsWith isSpace text = false := by
  cases h with
  | nil => rfl
  | cons hword =>
    obtain ⟨c, tail, rfl, hc | ⟨hc, -⟩⟩ := hword.head
    · exact not_isSpace_of_continuesIdentifier hc
    · exact not_isSpace_of_mark hc

theorem ne_nil {token : Token} (h : Spells (token :: tokens) text) : text ≠ [] := by
  cases h with
  | cons hword =>
    obtain ⟨c, tail, rfl, -⟩ := hword.head
    simp

theorem skipSpaces_gap (hgap : ∀ c ∈ gap, isSpace c = true) (h : Spells tokens rest) :
    skipSpaces (gap ++ rest) = rest :=
  skipSpaces_run hgap h.not_startsWith_isSpace

/-- The text of marks starts with a mark. -/
theorem atMark (h : Spells tokens rest) (hbounded : Bounded tokens) : AtMark rest := by
  intro c tail hc
  cases h with
  | nil => cases hc
  | cons hword =>
    cases hword with
    | mark hmark =>
      cases hc
      exact hmark
    | reg | number | name => exact hbounded.elim

theorem eq_mark {c : Char} (h : Spells (.mark c :: tokens) text) :
    ∃ tail, text = c :: tail ∧ Spells tokens (skipSpaces tail) := by
  cases h with
  | cons hword hgap hrest =>
    cases hword
    exact ⟨_, rfl, (skipSpaces_gap hgap hrest).symm ▸ hrest⟩

theorem register?_eq {reg : Reg} (hreg : reg.IsSpelled) (h : Spells (.reg reg :: tokens) text)
    (hbounded : Bounded tokens) :
    ∃ rest, register? text = some (reg, rest) ∧ Spells tokens rest := by
  cases h with
  | cons hword hgap hrest =>
    cases hword with
    | reg hword =>
      refine ⟨_, register?_of_mem (Reg.mem_spellings hreg) hword
        ((hrest.atMark hbounded).not_startsWith_gap hgap), ?_⟩
      rwa [skipSpaces_gap hgap hrest]

theorem number?_eq {value : UInt32} (h : Spells (.number value :: tokens) text)
    (hbounded : Bounded tokens) :
    ∃ rest, number? text = some (value, rest) ∧ Spells tokens rest := by
  cases h with
  | cons hword hgap hrest =>
    cases hword with
    | number hword =>
      refine ⟨_, number?_of_literal hword ((hrest.atMark hbounded).not_startsWith_gap hgap), ?_⟩
      rwa [skipSpaces_gap hgap hrest]

theorem identifier?_eq {target : String} (h : Spells (.name target :: tokens) text)
    (hbounded : Bounded tokens) :
    ∃ rest, identifier? text = some (target.toList, rest) ∧ Spells tokens rest := by
  cases h with
  | cons hword hgap hrest =>
    cases hword with
    | name hname => exact ⟨_, identifier?_name hname hgap (hrest.atMark hbounded), hrest⟩

/-- A number starts with a digit. -/
theorem exists_digit {value : UInt32} (h : Spells (.number value :: tokens) text) :
    ∃ c tail, text = c :: tail ∧ c.isDigit = true := by
  cases h with
  | cons hword =>
    cases hword with
    | number hword =>
      obtain ⟨c, tail, rfl, hc⟩ := hword.exists_digit
      exact ⟨c, _, rfl, hc⟩

/-- Only the token of a mark starts with that mark. -/
theorem not_startsWith_mark {token : Token} {c : Char} (h : Spells (token :: tokens) text)
    (hc : c ∈ marks) (hne : token ≠ .mark c) : startsWith (· == c) text = false := by
  cases h with
  | cons hword =>
    obtain ⟨first, tail, rfl, hfirst⟩ := hword.head
    have hmark : first ≠ c := by
      rintro rfl
      rcases hfirst with hfirst | ⟨-, rfl⟩
      · rw [not_continuesIdentifier_of_stop (Or.inr hc)] at hfirst
        cases hfirst
      · exact hne rfl
    simpa [startsWith] using hmark

/-- Behind a comma the next token is at hand. -/
theorem skipCommas_eq {token : Token} (h : Spells (.mark ',' :: token :: tokens) text)
    (hne : token ≠ .mark ',') : Spells (token :: tokens) (skipCommas text) := by
  cases h with
  | @cons _ _ _ gap rest hword hgap hrest =>
    cases hword
    have hrun : ∀ c ∈ ',' :: gap, (isSpace c || c == ',') = true := by
      intro c hc
      rcases List.mem_cons.1 hc with rfl | hc
      · rfl
      · rw [hgap c hc, Bool.true_or]
    have hnext : startsWith (fun c => isSpace c || c == ',') rest = false := by
      have hcomma := hrest.not_startsWith_mark (c := ',') (by decide) hne
      have hspace := hrest.not_startsWith_isSpace
      obtain ⟨c, tail, rfl⟩ := List.exists_cons_of_ne_nil hrest.ne_nil
      rw [startsWith] at hcomma hspace ⊢
      rw [hcomma, hspace, Bool.or_false]
    have hskip : skipCommas (',' :: gap ++ rest) = rest := dropWhile_run hrun hnext
    exact hskip.symm ▸ hrest

end Spells

end X86Listing
