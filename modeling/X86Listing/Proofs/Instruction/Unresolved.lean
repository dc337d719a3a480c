import X86Listing.Proofs.Instruction.Place

/-!
# Names that are not resolved

An operand that cannot be read is reported by a name if it looks like one.  The name is taken
from the end of the line, so it is that of the operand only if nothing stands behind it.

What a name can be depends on its place.  A name that is declared, but cannot stand where it
stands, is reported all the same.

* `Expects.boundary`: no place is inside of a name, so the name in an error is an identifier of
  the line.
* `Place.Fails.name?_eq_none`: an operand that cannot be read has no name that can stand there.
* `decode_unresolved`: what an error says about the name in it.
-/

namespace X86Listing

open Text (isSpace afterLast)

/-! ## Definitions -/

namespace Place

/-- What a name stands for at a place. -/
def name? (symbols : Symbols) : Place → String → Option UInt32
  | operand => symbols.declared?
  | part => symbols.declared?
  | source => symbols.locals.get?
  | label => symbols.address? none

/-- The place and the text behind the word `short`, which a label can have before it. -/
def target (place : Place) (text : List Char) : Place × List Char :=
  if place = source then (place, text)
  else
    match keyword? "short".toList text with
    | some after => (label, after)
    | none => (place, text)

end Place

variable {symbols : Symbols} {mnemonic text text' : List Char} {place : Place} {name : String}

/-! ## Places of a line -/

theorem Decoder.displacement_boundary {disp : UInt32} {rest : List Char}
    (h : displacement symbols text = .ok (disp, rest)) : Boundary text rest := by
  rcases displacement_cases symbols text with
    ⟨after, rfl, heq⟩ | ⟨sign, after, f, rfl, hsign, heq⟩ | ⟨_, _, heq⟩ <;> rw [heq] at h
  · cases h
    exact .mark (by decide) after
  · have hsign : continuesIdentifier sign = false := by rcases hsign with rfl | rfl <;> decide
    obtain ⟨⟨v, behind⟩, hvalue, h⟩ := except_bind_eq_ok h
    obtain ⟨rest', hbracket, h⟩ := except_bind_eq_ok h
    cases h
    obtain ⟨left, rfl, rfl⟩ := punctuation_eq_ok hbracket
    exact (Boundary.mark hsign after).trans ((Reader.Stops.boundary symbols.value?_stops
      (value_eq_ok_iff.1 hvalue)).trans (.mark (by decide) left))
  · cases h

theorem Decoder.memory_boundary {mem : MemoryOperand} {rest : List Char}
    (h : memory symbols text = .ok (mem, rest)) : Boundary text rest := by
  obtain ⟨inside, hbracket, h⟩ := except_bind_eq_ok h
  obtain ⟨⟨base, behind⟩, hbase, h⟩ := except_bind_eq_ok h
  obtain ⟨⟨disp, left⟩, hdisp, h⟩ := except_bind_eq_ok h
  cases h
  obtain ⟨inner, rfl, rfl⟩ := punctuation_eq_ok hbracket
  exact (Boundary.mark (by decide) inner).trans
    ((register?_stops.boundary (register_eq_ok_iff.1 hbase)).trans (displacement_boundary hdisp))

/-- A place is not inside of a name. -/
theorem Expects.boundary (h : Expects symbols mnemonic text place text') :
    Boundary text text' := by
  have hmark {sign : Char} {after : List Char} (hsign : sign ∈ ['[', '+', '-', '*']) :
      Boundary (sign :: after) (skipSpaces after) := by
    refine .mark ?_ after
    simp only [List.mem_cons, List.not_mem_nil, or_false] at hsign
    rcases hsign with rfl | rfl | rfl | rfl <;> decide
  have hbehind {reg reg' : Reg} {rest inner after : List Char} {sign : Char}
      (hregister : register? text = some (reg, rest)) (hinner : skipCommas rest = '[' :: inner)
      (hbase : register? (skipSpaces inner) = some (reg', sign :: after))
      (hsign : sign = '+' ∨ sign = '-') : Boundary text (skipSpaces after) := by
    have hfirst := (register?_stops.boundary hregister).trans (Boundary.skipCommas rest)
    rw [hinner] at hfirst
    exact (hfirst.trans (hmark (by simp))).trans
      ((register?_stops.boundary hbase).trans
        (hmark (by rcases hsign with rfl | rfl <;> simp)))
  cases h with
  | first => exact .refl _
  | factor hbracket hregister hcall hvalue hindex =>
    exact ((Reader.Stops.boundary symbols.value?_stops hvalue).trans (hmark (by simp))).trans
      ((register?_stops.boundary hindex).trans (hmark (by simp)))
  | displacement hbase hsign =>
    exact (hmark (by simp)).trans ((register?_stops.boundary hbase).trans
      (hmark (by rcases hsign with rfl | rfl <;> simp)))
  | second hmemory => exact (Decoder.memory_boundary hmemory).trans (.skipCommas _)
  | source hregister => exact (register?_stops.boundary hregister).trans (.skipCommas _)
  | label hregister hsecond hoffset =>
    exact ((register?_stops.boundary hregister).trans (.skipCommas _)).trans
      (keyword?_boundary hoffset)
  | address hregister hinner hbase hsign =>
    exact hbehind hregister hinner hbase (hsign.imp And.left And.left)
  | index hregister hinner hbase hindex hsign =>
    exact (hbehind hregister hinner hbase (Or.inl rfl)).trans
      ((register?_stops.boundary hindex).trans
        (hmark (by rcases hsign with rfl | rfl <;> simp)))

theorem FailsAt.boundary {line : List Char} (h : FailsAt symbols line place text) :
    Boundary line text := by
  obtain ⟨mnemonic, rest, hmnemonic, hexpects, -⟩ := h
  exact (mnemonic?_stops.boundary hmnemonic).trans hexpects.boundary

theorem FailsAt.fails {line : List Char} (h : FailsAt symbols line place text) :
    place.Fails symbols text := by
  obtain ⟨mnemonic, rest, -, -, hfails⟩ := h
  exact hfails

/-! ## The name of an operand -/

/-- The word `short` is passed over like in a label. -/
theorem Place.target_cases (place : Place) (text : List Char) :
    (place.target text = (place, text) ∧ (place ≠ source → Symbols.skipShort text = text)) ∨
      ∃ after, place.target text = (label, after) ∧ place ≠ source ∧
        keyword? "short".toList text = some after ∧ Symbols.skipShort text = after := by
  unfold target Symbols.skipShort
  by_cases hsource : place = source
  · exact Or.inl ⟨if_pos hsource, fun h => absurd hsource h⟩
  · rw [if_neg hsource]
    cases hshort : keyword? "short".toList text with
    | none => exact Or.inl ⟨rfl, fun _ => rfl⟩
    | some after => exact Or.inr ⟨after, rfl, hsource, rfl, rfl⟩

section Name

variable {word tail : List Char} (hword : IsIdentifier word)
  (htail : startsWith continuesIdentifier tail = false)
include hword htail

theorem Symbols.local?_eq_none (h : symbols.local? (word ++ tail) = none) :
    symbols.locals.get? (String.ofList word) = none := by
  simp only [local?, identifier?_append hword htail] at h
  cases hname : symbols.locals.get? (String.ofList word) with
  | none => rfl
  | some v =>
    rw [hname] at h
    cases h

theorem Symbols.offset?_eq_none (hcolon : ':' ∉ text) (hshort : skipShort text = word ++ tail)
    (h : symbols.offset? text = none) : symbols.address? none (String.ofList word) = none := by
  simp only [offset?, skipSegment, segment?_eq_none hcolon, hshort,
    identifier?_append hword htail] at h
  cases hname : symbols.address? none (String.ofList word) with
  | none => rfl
  | some v =>
    rw [hname] at h
    cases h

/-- What is no value is no name that a value can have. -/
theorem Symbols.declared?_eq_none (hcolon : ':' ∉ text) (hshort : skipShort text = text)
    (htext : text = word ++ tail) (h : symbols.value? text = none) :
    symbols.declared? (String.ofList word) = none := by
  obtain ⟨-, hlocal, hoffset⟩ : number? text = none ∧ symbols.local? text = none ∧
      symbols.offset? text = none := by simpa [value?] using h
  have haddress := offset?_eq_none hword htail hcolon (hshort.trans htext) hoffset
  rw [htext] at hlocal
  rw [declared?, local?_eq_none hword htail hlocal, Option.none_or]
  exact haddress

theorem not_spellsRegister (htext : text = word ++ tail) (h : register? text = none) :
    ¬SpellsRegister word := by
  rw [htext] at h
  exact (register?_eq_none_iff (identifier?_append hword htail)).1 h

/-- What cannot be read is no name that can stand at the place. -/
theorem Place.Fails.name?_eq_none (h : place.Fails symbols text) (hcolon : ':' ∉ text)
    (htarget : (place.target text).2 = word ++ tail) :
    (place.target text).1.name? symbols (String.ofList word) = none ∧
      ((place.target text).1.TakesRegister → ¬SpellsRegister word) := by
  obtain ⟨hread, hregister⟩ := h
  rcases place.target_cases text with ⟨hhere, hshort⟩ | ⟨after, hbehind, hsource, -, hshort⟩
  · rw [hhere] at htarget ⊢
    refine ⟨?_, fun hplace => not_spellsRegister hword htail htarget (hregister hplace)⟩
    cases place with
    | operand => exact Symbols.declared?_eq_none hword htail hcolon (hshort nofun) htarget hread
    | part => exact Symbols.declared?_eq_none hword htail hcolon (hshort nofun) htarget hread
    | source =>
      have hlocal : symbols.local? text = none := (Option.or_eq_none_iff.1 hread).2
      rw [show text = word ++ tail from htarget] at hlocal
      exact Symbols.local?_eq_none hword htail hlocal
    | label =>
      exact Symbols.offset?_eq_none hword htail hcolon ((hshort nofun).trans htarget) hread
  · -- Behind the word `short` a value is a label, so neither locals nor registers count.
    have hoffset : symbols.offset? text = none := by
      cases place with
      | operand => exact (Option.or_eq_none_iff.1 (Option.or_eq_none_iff.1 hread).2).2
      | part => exact (Option.or_eq_none_iff.1 (Option.or_eq_none_iff.1 hread).2).2
      | source => exact absurd rfl hsource
      | label => exact hread
    rw [hbehind] at htarget ⊢
    exact ⟨Symbols.offset?_eq_none hword htail hcolon (hshort.trans htarget) hoffset,
      by rintro (⟨⟨⟩⟩ | ⟨⟨⟩⟩)⟩

end Name

/-- The last word of a text is that of the operand, if nothing stands behind the operand. -/
theorem Place.afterLast_eq (hcolon : ':' ∉ text) (hblank : ∀ c ∈ text, isSpace c = true → c = ' ')
    (hend : ' ' ∉ (place.target text).2) :
    afterLast (fun c => c == ':' || c == ' ') text = (place.target text).2 := by
  have hword {word : List Char} (hsuffix : word <:+ text) (hend : ' ' ∉ word) :
      ∀ c ∈ word, (c == ':' || c == ' ') = false := by
    intro c hc
    rw [Bool.or_eq_false_iff, beq_eq_false_iff_ne, beq_eq_false_iff_ne]
    exact ⟨fun h => hcolon (h ▸ hsuffix.subset hc), fun h => hend (h ▸ hc)⟩
  rcases place.target_cases text with ⟨htarget, -⟩ | ⟨after, htarget, -, hshort, -⟩ <;>
    rw [htarget] at hend ⊢
  · exact @afterLast_append _ [] text (by simp) (hword List.suffix_rfl hend)
  · obtain ⟨keyword, behind, rfl, -, hspace, rfl⟩ := keyword?_eq_some hshort
    obtain ⟨gap, hbehind, hgap, hne⟩ := exists_gap_skipSpaces behind
    have hsplit : keyword ++ behind = (keyword ++ gap) ++ skipSpaces behind := by
      rw [List.append_assoc, ← hbehind]
    have hlast : ∀ c ∈ (keyword ++ gap).getLast?, (c == ':' || c == ' ') = true := by
      intro c hc
      have hmem : c ∈ gap := by
        rw [List.getLast?_append_of_ne_nil keyword (hne hspace)] at hc
        exact List.mem_of_getLast? hc
      have hc := hblank c (by rw [hsplit]; simp [hmem]) (hgap c hmem)
      simp [hc]
    rw [hsplit]
    exact afterLast_append hlast (hword (suffix_of_keyword? hshort) hend)

/-- An operand that cannot be read is reported by a name, which is an identifier of the line.
If nothing stands behind the operand, the name is that of the operand: nothing that can stand
there has this name, and no register that can stand there is spelled so. -/
theorem decode_unresolved {line : List Char} (hcolon : ':' ∉ line)
    (h : decode symbols line = .error (.unresolved name)) :
    IdentifierOf name.toList line ∧ (∃ place text, FailsAt symbols line place text) ∧
      ∀ place text, FailsAt symbols line place text →
        (∀ c ∈ line, isSpace c = true → c = ' ') → ' ' ∉ (place.target text).2 →
          (∃ tail, (place.target text).2 = name.toList ++ tail ∧
            startsWith continuesIdentifier tail = false) ∧
          (place.target text).1.name? symbols name = none ∧
          ((place.target text).1.TakesRegister → ¬SpellsRegister name.toList) := by
  have hunreadable {place : Place} {text : List Char} (hfails : FailsAt symbols line place text) :
      Decoder.unreadable place.expected text = .unresolved name :=
    Except.error.inj (hfails.decode_eq.symm.trans h)
  obtain ⟨place, text, hfails⟩ := exists_failsAt h
  refine ⟨(identifierOf_of_unreadable (hunreadable hfails)).of_boundary hfails.boundary,
    ⟨place, text, hfails⟩, ?_⟩
  intro place text hfails hblank hend
  have hsubset := hfails.boundary.suffix.subset
  have hcolon' : ':' ∉ text := fun hmem => hcolon (hsubset hmem)
  have hlast := Place.afterLast_eq hcolon' (fun c hc => hblank c (hsubset hc)) hend
  obtain ⟨hname, hidentifier⟩ := unreadable_eq_unresolved (hunreadable hfails)
  rw [hlast] at hname
  have hsplit : (place.target text).2 = name.toList ++
      (place.target text).2.dropWhile continuesIdentifier := by
    rw [hname, List.takeWhile_append_dropWhile]
  have htail := not_startsWith_dropWhile continuesIdentifier (place.target text).2
  have hmeaning := hfails.fails.name?_eq_none hidentifier htail hcolon' hsplit
  rw [String.ofList_toList] at hmeaning
  exact ⟨⟨_, hsplit, htail⟩, hmeaning⟩

/-- Symbols with one label of the code. -/
def startSymbols : Symbols :=
  ⟨.empty, NameMap.empty.insert "start" codeBase, .new 0⟩

theorem decode_unresolved_limit :
    IdentifierOf "limit".toList "cmp [ebp+8], limit".toList ∧
      startSymbols.declared? "limit" = none ∧ ¬SpellsRegister "limit".toList := by
  have hdecode : decode startSymbols "cmp [ebp+8], limit".toList =
      .error (.unresolved "limit") := by decide
  have hmemory : Decoder.memory startSymbols "[ebp+8], limit".toList =
      .ok (⟨.ebp, 8⟩, ", limit".toList) := by decide
  have hexpects : Expects startSymbols "cmp".toList "[ebp+8], limit".toList .operand
      "limit".toList := .second hmemory (by decide)
  have hfails : FailsAt startSymbols "cmp [ebp+8], limit".toList .operand "limit".toList :=
    ⟨_, _, by decide, hexpects, by decide, fun _ => by decide⟩
  obtain ⟨hname, -, hplace⟩ := decode_unresolved (by decide) hdecode
  obtain ⟨-, hdeclared, hregister⟩ := hplace _ _ hfails (by simp [isSpace]) (by decide)
  exact ⟨hname, hdeclared, hregister (Or.inl rfl)⟩

/-- A name can be declared and still be reported: behind a register no label is read. -/
theorem not_decode_unresolved_undeclared :
    ¬∀ (symbols : Symbols) (line : List Char) (name : String), ':' ∉ line →
      decode symbols line = .error (.unresolved name) →
        IdentifierOf name.toList line ∧ ¬SpellsRegister name.toList ∧
          symbols.declared? name = none := by
  intro h
  obtain ⟨-, -, hdeclared⟩ := h startSymbols "mov eax, start".toList "start" (by decide)
    (by decide)
  exact absurd hdeclared (by decide)

end X86Listing
