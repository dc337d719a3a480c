import X86Listing.Proofs.Instruction.Decoding
import X86Listing.Proofs.Operand.Declared

/-!
# Labels as operands

The address of a label is written as `short name` behind the mnemonic of a jump, and as
`offset name` behind the register of a move.

* `ShortJump` and `OffsetLoad` are such lines, with letters in either case and any number
  of spaces.
* `ShortJump.decode_eq_ok` and `OffsetLoad.decode_eq` say what they are decoded as.

Both words are themselves identifiers.  A local called `short` would be read in the place
of the label, but the label would be left over, so the line is then refused.
-/

namespace X86Listing

open Text (isSpace isHexDigit SameLetters)

/-! ## Definitions -/

/-- A line `jcc short name`. -/
def ShortJump (condition : Condition) (name line : List Char) : Prop :=
  ∃ word gap keyword gap', SameLetters condition.mnemonic.toList word ∧
    (∀ c ∈ gap, isSpace c = true) ∧ gap ≠ [] ∧ SameLetters keyword "short".toList ∧
    (∀ c ∈ gap', isSpace c = true) ∧ gap' ≠ [] ∧
    line = word ++ (gap ++ (keyword ++ (gap' ++ name)))

/-- A line `mov reg, offset name`. -/
def OffsetLoad (reg : Reg) (name line : List Char) : Prop :=
  ∃ word gap operand sep keyword gap', SameLetters "mov".toList word ∧
    (∀ c ∈ gap, isSpace c = true) ∧ gap ≠ [] ∧ SameLetters reg.name.toList operand ∧
    (∀ c ∈ sep, isSpace c = true ∨ c = ',') ∧ sep ≠ [] ∧
    SameLetters keyword "offset".toList ∧ (∀ c ∈ gap', isSpace c = true) ∧ gap' ≠ [] ∧
    line = word ++ (gap ++ (operand ++ (sep ++ (keyword ++ (gap' ++ name)))))

/-! ## Words before a name -/

/-- A number starts with a sign, a digit or a mark. -/
theorem number?_eq_none_of_letter {c : Char} {text : List Char} (hsign : c ≠ '-')
    (hdigit : isHexDigit c = false) (hmark : c ≠ 'h' ∧ c ≠ 'H')
    (hstart : startsIdentifier c = true) : number? (c :: text) = none := by
  have hskip : skipSign (c :: text) = (false, c :: text) := by simp [skipSign, skipChar?, hsign]
  have hno : skipMark (c :: text) = (false, c :: text) := by
    rcases skipMark_cases (c :: text) with ⟨mark, rest, heq, hletter, -⟩ | hno
    · obtain ⟨rfl, -⟩ := List.cons.inj heq
      rcases hletter with rfl | rfl
      · exact absurd rfl hmark.1
      · exact absurd rfl hmark.2
    · exact hno
  simp [number?, hskip, hdigit, hno, startsWith, hstart]

section Keyword

variable {word keyword gap rest : List Char} (hkeyword : SameLetters keyword word)
  (hword : ∀ c ∈ word, c.isAlpha = true) (hne : word ≠ [])
  (hgap : ∀ c ∈ gap, isSpace c = true) (hgapne : gap ≠ [])
include hkeyword hword hgap hgapne

/-- The word ends where the spaces start. -/
theorem keyword_run (rest : List Char) :
    (∀ c ∈ keyword, c.isAlpha = true) ∧
      startsWith continuesIdentifier (gap ++ rest) = false := by
  refine ⟨all_isAlpha_of_sameLetters hword hkeyword.symm, ?_⟩
  obtain ⟨c, gap, rfl⟩ := List.exists_cons_of_ne_nil hgapne
  exact not_continuesIdentifier_of_stop (Or.inl (hgap c List.mem_cons_self))

theorem segment?_keyword : segment? (keyword ++ (gap ++ rest)) = none := by
  obtain ⟨hletters, hstop⟩ := keyword_run hkeyword hword hgap hgapne rest
  have hnext : startsWith Char.isAlpha (gap ++ rest) = false :=
    not_startsWith_of_imp (fun _ => continuesIdentifier_of_isAlpha) hstop
  have hcolon : skipChar? ':' (gap ++ rest) = none := by
    obtain ⟨c, gap, rfl⟩ := List.exists_cons_of_ne_nil hgapne
    have hc : c ≠ ':' := by
      rintro rfl
      cases hgap ':' List.mem_cons_self
    exact if_neg hc
  simp only [segment?, takeWhile_run hletters hnext, dropWhile_run hletters hnext, hcolon]
  split <;> rfl

variable (hrest : startsWith isSpace rest = false)
include hne hrest

/-- The word is read as an identifier. -/
theorem identifier?_keyword :
    identifier? (keyword ++ (gap ++ rest)) = some (keyword, rest) := by
  obtain ⟨hletters, hstop⟩ := keyword_run hkeyword hword hgap hgapne rest
  have hcontinues : ∀ c ∈ keyword, continuesIdentifier c = true :=
    fun c hc => continuesIdentifier_of_isAlpha (hletters c hc)
  obtain ⟨c, tail, rfl⟩ := List.exists_cons_of_ne_nil (ne_nil_of_sameLetters hne hkeyword.symm)
  have hstart : startsWith startsIdentifier (c :: tail ++ (gap ++ rest)) = true := by
    show startsIdentifier c = true
    rw [startsIdentifier, hletters c List.mem_cons_self, Bool.true_or]
  rw [identifier?, if_pos hstart, takeWhile_run hcontinues hstop,
    dropWhile_run hcontinues hstop, skipSpaces_run hgap hrest]

/-- The word is read as a register only if it spells one. -/
theorem register?_keyword
    (hnone : ∀ entry ∈ Reg.spellings.toList, ¬SameLetters entry.1.toList word) :
    register? (keyword ++ (gap ++ rest)) = none := by
  have hread := identifier?_keyword hkeyword hword hne hgap hgapne hrest
  refine (register?_eq_none_iff hread).2 ?_
  rintro ⟨name, reg, hmem, hname⟩
  exact hnone (name, reg) (Array.mem_toList_iff.2 hmem) (hname.trans hkeyword)

end Keyword

/-! ## Labels -/

namespace Symbols

variable {symbols : Symbols} {name keyword gap : List Char} {address : UInt32}
  (hname : IsIdentifier name)
  (haddress : symbols.address? none (String.ofList name) = some address)
include hname haddress

theorem offset?_label : symbols.offset? name = some (address, []) := by
  rw [symbols.offset?_end hname, haddress, Option.map_some]

variable (hkeyword : SameLetters keyword "short".toList)
  (hgap : ∀ c ∈ gap, isSpace c = true) (hne : gap ≠ [])
include hkeyword hgap hne

/-- The word `short` before a label is passed over. -/
theorem offset?_short : symbols.offset? (keyword ++ (gap ++ name)) = some (address, []) := by
  have hspace := hname.not_startsWith_isSpace
  have hsegment : segment? (keyword ++ (gap ++ name)) = none :=
    segment?_keyword hkeyword (by simp) hgap hne
  have hskip : skipShort (keyword ++ (gap ++ name)) = name := by
    rw [skipShort, keyword?_eq hkeyword hgap hne hspace, Option.getD_some]
  have hread : identifier? (name ++ ([] ++ [])) = some (name, []) :=
    identifier?_name hname (by simp) atMark_nil
  rw [List.nil_append, List.append_nil] at hread
  simp only [offset?, skipSegment, hsegment, hskip, hread, haddress]

/-- A label behind the word `short` is a value, unless a local is called like the word. -/
theorem value?_short :
    symbols.value? (keyword ++ (gap ++ name)) = some (address, []) ∨
      ∃ value, symbols.value? (keyword ++ (gap ++ name)) = some (value, name) := by
  obtain ⟨s, tail, rfl, hs, -⟩ := List.map_eq_cons_iff.1 hkeyword
  have hnumber : number? (s :: tail ++ (gap ++ name)) = none := by
    rcases eq_or_eq_of_toLower 's' 'S' rfl hs with rfl | rfl
    · exact number?_eq_none_of_letter (by decide) rfl (by decide) rfl
    · exact number?_eq_none_of_letter (by decide) rfl (by decide) rfl
  have hread := identifier?_keyword hkeyword (by simp) (by simp) hgap hne
    hname.not_startsWith_isSpace
  rw [value?, hnumber, Option.none_or, local?, hread]
  cases hlocal : symbols.locals.get? (String.ofList (s :: tail)) with
  | none => exact Or.inl (by simp only [hlocal, Option.none_or,
      offset?_short hname haddress hkeyword hgap hne])
  | some value => exact Or.inr ⟨value, by simp only [hlocal, Option.some_or]⟩

end Symbols

/-! ## Lines -/

theorem Condition.isAlpha_mnemonic (condition : Condition) :
    condition.mnemonic.toList ≠ [] ∧ ∀ c ∈ condition.mnemonic.toList, c.isAlpha = true :=
  (Instruction.imm (.jump condition) 0).isAlpha_mnemonic

/-- The line of a jump to a label can only be decoded as that jump. -/
theorem ShortJump.decode_eq_ok {condition : Condition} {name line : List Char}
    (h : ShortJump condition name line) (hname : IsIdentifier name) {symbols : Symbols}
    {address : UInt32} {instruction : Instruction}
    (haddress : symbols.address? none (String.ofList name) = some address)
    (hdecode : decode symbols line = .ok instruction) :
    instruction = .imm (.jump condition) address := by
  obtain ⟨word, gap, keyword, gap', hword, hgap, hne, hkeyword, hgap', hne', rfl⟩ := h
  obtain ⟨hmnemonicne, hletters⟩ := condition.isAlpha_mnemonic
  have hkeywordne : keyword ≠ [] := ne_nil_of_sameLetters (by simp) hkeyword.symm
  obtain ⟨hblank, hbracket, -⟩ := startsWith_letters hkeywordne
    (all_isAlpha_of_sameLetters (by simp) hkeyword.symm) (gap' ++ name)
  have hmnemonic := mnemonic?_eq (ne_nil_of_sameLetters hmnemonicne hword)
    (all_isAlpha_of_sameLetters hletters hword) hgap hblank fun _ => hne
  have hcall : callTable.find? word = none :=
    Decoder.callTable_find?_eq_none (by cases condition <;> decide) hword
  have hregister : register? (keyword ++ (gap' ++ name)) = none :=
    register?_keyword hkeyword (by simp) (by simp) hgap' hne' hname.not_startsWith_isSpace
      (by decide +kernel)
  have hnil : keyword ++ (gap' ++ name) ≠ [] := by simp [hkeywordne]
  rw [decode, hmnemonic] at hdecode
  simp only [Decoder.operands, if_neg hnil, hbracket, hregister, hcall] at hdecode
  replace hdecode : Decoder.valueFirst word symbols (keyword ++ (gap' ++ name)) =
      .ok instruction := hdecode
  rcases Symbols.value?_short hname haddress hkeyword hgap' hne' with hvalue | ⟨value, hvalue⟩
  · have hop : ImmOp.table.Lists (.jump condition) := by
      cases condition <;> simp [Mnemonics.Lists, ImmOp.table]
    simp only [Decoder.valueFirst, Decoder.value, hvalue, except_ok_bind, skipChar?,
      Decoder.finish, if_pos, Decoder.select_eq_ok ImmOp.table_ordered hop hword] at hdecode
    cases hdecode
    rfl
  · -- Behind the local nothing but the end of the line could follow.
    obtain ⟨c, tail, rfl, hc⟩ := hname.exists_cons
    have hopen : c ≠ '[' := by
      rintro rfl
      cases hc
    simp only [Decoder.valueFirst, Decoder.value, hvalue, except_ok_bind, skipChar?,
      if_neg hopen, Decoder.finish, if_neg (List.cons_ne_nil c tail)] at hdecode
    cases hdecode

section Operand

variable {reg : Reg} {operand sep : List Char} (hsep : ∀ c ∈ sep, isSpace c = true ∨ c = ',')
include hsep

/-- A register ends where a space or a comma comes next. -/
theorem register?_operand (hreg : reg.IsSpelled)
    (hoperand : SameLetters reg.name.toList operand) (hne : sep ≠ []) (rest : List Char) :
    register? (operand ++ (sep ++ rest)) = some (reg, skipSpaces (sep ++ rest)) := by
  refine register?_of_mem (Reg.mem_spellings hreg) hoperand ?_
  obtain ⟨c, tail, rfl⟩ := List.exists_cons_of_ne_nil hne
  refine not_continuesIdentifier_of_stop ?_
  rcases hsep c List.mem_cons_self with hc | rfl
  · exact Or.inl hc
  · exact Or.inr (by decide)

theorem skipCommas_sep {rest : List Char}
    (hrest : startsWith (fun c => isSpace c || c == ',') rest = false) :
    skipCommas (skipSpaces (sep ++ rest)) = rest := by
  rw [skipCommas_skipSpaces, skipCommas_append hsep]
  exact dropWhile_of_not_startsWith hrest

end Operand

/-- The line that loads the address of a label is decoded as that load. -/
theorem OffsetLoad.decode_eq {reg : Reg} {name line : List Char} (h : OffsetLoad reg name line)
    (hname : IsIdentifier name) (hreg : reg.IsSpelled) {symbols : Symbols} {address : UInt32}
    (haddress : symbols.address? none (String.ofList name) = some address) :
    decode symbols line = .ok (.regImm .mov reg address) := by
  obtain ⟨word, gap, operand, sep, keyword, gap', hword, hgap, hne, hoperand, hsep, hsepne,
    hkeyword, hgap', hne', rfl⟩ := h
  obtain ⟨hregne, hregletters⟩ := Reg.isAlpha_name reg
  have hoperandne : operand ≠ [] := ne_nil_of_sameLetters hregne hoperand
  have hkeywordne : keyword ≠ [] := ne_nil_of_sameLetters (by simp) hkeyword.symm
  have hspace := hname.not_startsWith_isSpace
  let offset := keyword ++ (gap' ++ name)
  have hoffsetne : offset ≠ [] := by simp [offset, hkeywordne]
  obtain ⟨hblank, hbracket, -⟩ := startsWith_letters hoperandne
    (all_isAlpha_of_sameLetters hregletters hoperand) (sep ++ offset)
  obtain ⟨-, hbracket', hcomma⟩ := startsWith_letters hkeywordne
    (all_isAlpha_of_sameLetters (by simp) hkeyword.symm) (gap' ++ name)
  have hmnemonic := mnemonic?_eq (ne_nil_of_sameLetters (by simp) hword)
    (all_isAlpha_of_sameLetters (by simp) hword) hgap hblank fun _ => hne
  have hregister := register?_operand hsep hreg hoperand hsepne offset
  have hskip : skipCommas (skipSpaces (sep ++ offset)) = offset := skipCommas_sep hsep hcomma
  have hnone : register? offset = none :=
    register?_keyword hkeyword (by simp) (by simp) hgap' hne' hspace (by decide +kernel)
  have hvalue : Decoder.registerValue symbols offset = .ok (address, []) := by
    simp only [Decoder.registerValue, offset, keyword?_eq hkeyword hgap' hne' hspace,
      Symbols.offset?_label hname haddress]
  have hop : PairOp.valueTable.Lists .mov := ⟨"mov", by simp [PairOp.valueTable]⟩
  have hnil : operand ++ (sep ++ offset) ≠ [] := by simp [hoperandne]
  rw [decode, hmnemonic]
  simp only [Decoder.operands, if_neg hnil, hbracket, hregister]
  show Decoder.registerFirst word reg symbols (skipSpaces (sep ++ offset)) = _
  have hplain : ¬startsWith (· == '[') offset = true := by
    rw [hbracket']
    decide
  simp only [Decoder.registerFirst, hskip, if_neg hoffsetne, hnone, if_neg hplain, hvalue,
    except_ok_bind, Decoder.finish, if_pos,
    Decoder.select_eq_ok PairOp.valueTable_ordered hop hword]
  rfl

end X86Listing
