import X86Listing.Proofs.Declaration.Element
import X86Listing.Proofs.Declaration.OffsetTable

/-!
# The elements that a declaration lists

A line that is accepted lists elements, and its bytes are the bytes of these elements.  In
particular a number of any sign and radix is stored in two's complement.

A number has to fit its element, but it is its word that is looked at.  The word of a number in
range is also the word of the numbers `2 ^ 32` above and below it.  Of these, the ones that can
be written are accepted as well: `db -0FFFFFFFFh` declares the byte `1`.

* `Item.StandsBefore` and `Listed` relate elements to the text that lists them.
* `Element.exists_item_of_read` finds the element that was read, and `Element.exists_listed` is
  the induction over the text.
* `Item.StandsBefore.read_cases` reads one element, and `Listed.readAll_eq_ok_iff` is the
  induction over the list.
* `Declaration.decode_listed`: the bytes of an accepted line, and the range of its numbers.
-/

namespace X86Listing

open Text (isSpace isHexDigit SameLetters utf8Bytes)

/-! ## Definitions -/

/-- The texts from which an element is read, in front of another text. -/
inductive Item.StandsBefore (symbols : Symbols) (rest : List Char) :
    Directive → Item → List Char → Prop where
  | quoted {quote : Char} {text : List Char} (hquote : isQuote quote = true)
      (htext : quote ∉ text) :
      StandsBefore symbols rest .byte (.quoted quote text) (quote :: (text ++ [quote]))
  | number {directive : Directive} {numeral : Numeral} (hformed : numeral.WellFormed)
      (hends : numeral.EndsBefore rest) :
      StandsBefore symbols rest directive (.number numeral) numeral.text
  | unknown {directive : Directive} : StandsBefore symbols rest directive .unknown ['?']
  | offset {keyword gap operand : List Char} {address : UInt32}
      (hkeyword : SameLetters keyword "offset".toList) (hgap : ∀ c ∈ gap, isSpace c = true)
      (hne : gap ≠ []) (hstart : startsWith isSpace (operand ++ rest) = false)
      (hoperand : symbols.offset? (operand ++ rest) = some (address, rest)) :
      StandsBefore symbols rest .dword (.offset address) (keyword ++ (gap ++ operand))

/-- The elements that a text lists, with spaces and commas around them. -/
inductive Listed (symbols : Symbols) (directive : Directive) : List Item → List Char → Prop where
  | nil {sep : List Char} (hsep : ∀ c ∈ sep, isSpace c = true ∨ c = ',') :
      Listed symbols directive [] sep
  | cons {sep word rest : List Char} {item : Item} {items : List Item}
      (hsep : ∀ c ∈ sep, isSpace c = true ∨ c = ',')
      (hitem : item.StandsBefore symbols rest directive word)
      (hrest : Listed symbols directive items rest) :
      Listed symbols directive (item :: items) (sep ++ (word ++ rest))

/-- The element is taken, which only a number may fail to be. -/
def Item.Fits (directive : Directive) (item : Item) : Prop :=
  ∀ numeral, item = .number numeral → directive.Takes numeral.value

variable {symbols : Symbols} {directive : Directive} {item : Item} {items : List Item}
  {text word rest left : List Char} {bytes : List UInt8}

/-! ## Separators -/

theorem exists_sep_skipCommas (text : List Char) :
    ∃ sep, text = sep ++ skipCommas text ∧ ∀ c ∈ sep, isSpace c = true ∨ c = ',' := by
  refine ⟨text.takeWhile fun c => isSpace c || c == ',', List.takeWhile_append_dropWhile.symm, ?_⟩
  intro c hc
  simpa using List.mem_takeWhile_imp hc

theorem Listed.append {sep : List Char} (h : Listed symbols directive items text)
    (hsep : ∀ c ∈ sep, isSpace c = true ∨ c = ',') :
    Listed symbols directive items (sep ++ text) := by
  have hboth {sep' : List Char} (hsep' : ∀ c ∈ sep', isSpace c = true ∨ c = ',') :
      ∀ c ∈ sep ++ sep', isSpace c = true ∨ c = ',' := by
    intro c hc
    exact (List.mem_append.1 hc).elim (hsep c) (hsep' c)
  cases h with
  | nil hsep' => exact .nil (hboth hsep')
  | cons hsep' hitem hrest =>
    rw [← List.append_assoc]
    exact .cons (hboth hsep') hitem hrest

theorem Listed.empty : Listed symbols directive [] [] :=
  .nil (by simp)

theorem Listed.cons_word (hitem : item.StandsBefore symbols rest directive word)
    (hrest : Listed symbols directive items rest) :
    Listed symbols directive (item :: items) (word ++ rest) := by
  have hsep : ∀ c ∈ [], isSpace c = true ∨ c = ',' := by simp
  exact List.nil_append (word ++ rest) ▸ Listed.cons hsep hitem hrest

/-! ## What was read -/

namespace Element

/-- Quoted text and the closing quote. -/
theorem quoted_eq_ok {quote : Char} (h : quoted quote text = .ok (bytes, left)) :
    ∃ inside, quote ∉ inside ∧ text = inside ++ quote :: left := by
  have hsplit : text.takeWhile (fun c => c != quote) ++ text.dropWhile (fun c => c != quote) =
      text := List.takeWhile_append_dropWhile
  have hstop := not_startsWith_dropWhile (fun c => c != quote) text
  simp only [quoted] at h
  cases hdrop : text.dropWhile fun c => c != quote with
  | nil =>
    rw [hdrop] at h
    cases h
  | cons c rest =>
    rw [hdrop] at h hsplit hstop
    cases h
    obtain rfl : c = quote := by simpa [startsWith] using hstop
    refine ⟨_, ?_, hsplit.symm⟩
    intro hmem
    simpa using List.mem_takeWhile_imp hmem

theorem exists_item_of_value {v : UInt32} (h : value directive symbols text = .ok (v, left)) :
    ∃ (item : Item) (word gap : List Char), text = word ++ (gap ++ left) ∧
      (∀ c ∈ gap, isSpace c = true) ∧ item.StandsBefore symbols (gap ++ left) directive word := by
  unfold value at h
  split at h
  · next rest hmark =>
    cases h
    exact ⟨.unknown, ['?'], [], skipChar?_eq_some.1 hmark, by simp, .unknown⟩
  split at h
  · next rest hskip =>
    obtain ⟨rfl, hskip⟩ : directive = .dword ∧ keyword? "offset".toList text = some rest := by
      simpa [skipOffset?] using hskip
    obtain ⟨keyword, after, rfl, hkeyword, hspace, rfl⟩ := keyword?_eq_some hskip
    split at h
    · next result hoffset =>
      cases h
      obtain ⟨gap, hafter, hgap, hne⟩ := exists_gap_skipSpaces after
      obtain ⟨operand, hoperand⟩ := (symbols.offset?_advances hoffset).1
      have hstop : startsWith isSpace (skipSpaces after) = false :=
        not_startsWith_dropWhile isSpace after
      refine ⟨.offset v, keyword ++ (gap ++ operand), [], ?_, by simp, ?_⟩
      · rw [List.nil_append, List.append_assoc, List.append_assoc, hoperand, ← hafter]
      · rw [← hoperand] at hoffset hstop
        exact .offset hkeyword hgap (hne hspace) hstop hoffset
    · cases h
  split at h
  · cases h
  next value rest hnumber =>
  split at h
  · next w hnarrow =>
    cases h
    obtain ⟨numeral, after, rfl, hformed, hends, -, -, rfl⟩ := exists_numeral_of_number? hnumber
    obtain ⟨gap, hafter, hgap, -⟩ := exists_gap_skipSpaces after
    refine ⟨.number numeral, numeral.text, gap, by rw [← hafter], hgap, ?_⟩
    rw [← hafter]
    exact .number hformed hends
  · cases h

/-- What was read as an element is one, with spaces behind it. -/
theorem exists_item_of_read (h : read directive symbols text = .ok (bytes, left)) :
    ∃ (item : Item) (word gap : List Char), text = word ++ (gap ++ left) ∧
      (∀ c ∈ gap, isSpace c = true) ∧ item.StandsBefore symbols (gap ++ left) directive word := by
  cases text with
  | nil => cases h
  | cons c tail =>
    simp only [read] at h
    split at h
    · next hquote =>
      obtain ⟨rfl, hquote⟩ := hquote
      obtain ⟨inside, hinside, rfl⟩ := quoted_eq_ok h
      exact ⟨.quoted c inside, c :: (inside ++ [c]), [], by simp, by simp, .quoted hquote hinside⟩
    · cases hvalue : value directive symbols (c :: tail) with
      | error e =>
        rw [hvalue] at h
        cases h
      | ok result =>
        rw [hvalue] at h
        cases h
        exact exists_item_of_value hvalue

/-- What was read as elements is a list of them. -/
theorem exists_listed (h : readAll directive symbols text = .ok bytes) :
    ∃ items, Listed symbols directive items text := by
  induction text using readAll.induct directive symbols generalizing bytes with
  | case1 text hskip =>
    obtain ⟨sep, htext, hsep⟩ := exists_sep_skipCommas text
    rw [hskip, List.append_nil] at htext
    exact ⟨[], htext ▸ .nil hsep⟩
  | case2 text c tail hskip e hread =>
    rw [readAll_eq] at h
    simp only [hskip, hread] at h
    cases h
  | case3 text c tail hskip first left hread e hmore ih =>
    rw [readAll_eq] at h
    simp only [hskip, hread, hmore] at h
    cases h
  | case4 text c tail hskip first left hread more hmore ih =>
    obtain ⟨sep, htext, hsep⟩ := exists_sep_skipCommas text
    obtain ⟨item, word, gap, hword, hgap, hitem⟩ := exists_item_of_read hread
    obtain ⟨items, hitems⟩ := ih hmore
    rw [hskip, hword] at htext
    subst htext
    exact ⟨item :: items, .cons hsep hitem (hitems.append fun c hc => Or.inl (hgap c hc))⟩

end Element

/-! ## Reading an element -/

theorem Numeral.WellFormed.exists_cons {numeral : Numeral} (h : numeral.WellFormed) :
    ∃ c tail, numeral.text = c :: tail ∧ (c = '-' ∨ Text.isHexDigit c = true) := by
  obtain ⟨c, digits, hdigits⟩ := List.exists_cons_of_ne_nil h.digits_ne_nil
  have hc := h.isHexDigit c (by simp [hdigits])
  rw [text, hdigits]
  cases numeral.negative with
  | true => exact ⟨'-', _, rfl, Or.inl rfl⟩
  | false => exact ⟨c, _, rfl, Or.inr hc⟩

/-- A sign or a digit starts neither a quotation nor a keyword, and it is no separator. -/
theorem not_special_of_sign_or_digit {c : Char} (h : c = '-' ∨ isHexDigit c = true) :
    isQuote c = false ∧ c ≠ '?' ∧ c.toLower ≠ 'o' ∧ isSpace c = false ∧ c ≠ ',' := by
  have hne : ∀ d : Char, d ≠ '-' → isHexDigit d = false → c ≠ d := by
    rintro d hsign hdigit rfl
    rcases h with h | h
    · exact hsign h
    · rw [hdigit] at h
      cases h
  have hspace : isSpace c = false := by
    rcases h with rfl | h
    · rfl
    · exact not_isSpace_of_continuesIdentifier (continuesIdentifier_of_isHexDigit h)
  refine ⟨?_, hne _ (by decide) (by decide), ?_, hspace, hne _ (by decide) (by decide)⟩
  · rw [isQuote, beq_eq_false_iff_ne.2 (hne _ (by decide) (by decide)),
      beq_eq_false_iff_ne.2 (hne _ (by decide) (by decide))]
    rfl
  · intro hlower
    rcases eq_or_eq_of_toLower 'o' 'O' rfl hlower with rfl | rfl
    · exact hne 'o' (by decide) (by decide) rfl
    · exact hne 'O' (by decide) (by decide) rfl

namespace Element

theorem quoted_eq {quote : Char} (h : quote ∉ text) (rest : List Char) :
    quoted quote (text ++ quote :: rest) = .ok (utf8Bytes text, rest) := by
  have hinside : ∀ c ∈ text, (c != quote) = true := by
    rintro c hc
    rw [bne_iff_ne]
    rintro rfl
    exact h hc
  have hstop : startsWith (fun c => c != quote) (quote :: rest) = false := by simp [startsWith]
  simp only [quoted, takeWhile_run hinside hstop, dropWhile_run hinside hstop]

/-- An element that is no quotation is a word. -/
theorem read_cons {c : Char} (hquote : isQuote c = false) (tail : List Char) :
    read directive symbols (c :: tail) =
      (value directive symbols (c :: tail)).map fun (v, rest) => (directive.encode v, rest) := by
  simp [read, hquote]

theorem skipOffset?_cons {c : Char} (h : c.toLower ≠ 'o') (tail : List Char) :
    skipOffset? directive (c :: tail) = none := by
  unfold skipOffset?
  split
  · simp [keyword?, skipWord?, SameLetters, h]
  · rfl

/-- A number is read up to its end if it is taken. -/
theorem read_number {numeral : Numeral} (hformed : numeral.WellFormed)
    (hends : numeral.EndsBefore rest) :
    (directive.Takes numeral.value ∧ read directive symbols (numeral.text ++ rest) =
        .ok ((Item.number numeral).bytes directive, skipSpaces rest)) ∨
      (¬directive.Takes numeral.value ∧
        ∃ e, read directive symbols (numeral.text ++ rest) = .error e) := by
  have hnumber := hformed.number?_text hends
  have habs := numeral.natAbs_value
  obtain ⟨c, tail, htext, hc⟩ := hformed.exists_cons
  obtain ⟨hquote, hmark, hletter, -⟩ := not_special_of_sign_or_digit hc
  rw [htext, List.cons_append] at hnumber ⊢
  rw [read_cons hquote]
  simp only [value, skipChar?, if_neg hmark, skipOffset?_cons hletter]
  by_cases hlt : numeral.magnitude < 2 ^ 32
  · rw [if_pos hlt] at hnumber
    cases hnarrow : directive.narrow? numeral.word with
    | some w =>
      have htakes := Directive.takes_of_narrow? numeral.toNat_word (habs ▸ hlt) hnarrow
      obtain ⟨w', hnarrow', hword⟩ := htakes.exists_narrow? numeral.toNat_word
      obtain rfl : w = w' := Option.some.inj (hnarrow.symm.trans hnarrow')
      refine Or.inl ⟨htakes, ?_⟩
      simp only [hnumber, hnarrow, Except.map, Directive.encode_eq hword, Item.bytes]
    | none =>
      refine Or.inr ⟨fun htakes => ?_, _, by simp only [hnumber, hnarrow, Except.map]; rfl⟩
      obtain ⟨w, hnarrow', -⟩ := htakes.exists_narrow? numeral.toNat_word
      rw [hnarrow] at hnarrow'
      cases hnarrow'
  · rw [if_neg hlt] at hnumber
    exact Or.inr ⟨fun htakes => hlt (habs ▸ htakes.natAbs_lt), _,
      by simp only [hnumber, Except.map]; rfl⟩

/-- The address behind the word `offset` is an element of `dd`. -/
theorem read_offset_eq {keyword gap operand : List Char} {address : UInt32}
    (hkeyword : SameLetters keyword "offset".toList) (hgap : ∀ c ∈ gap, isSpace c = true)
    (hne : gap ≠ []) (hstart : startsWith isSpace (operand ++ rest) = false)
    (hoperand : symbols.offset? (operand ++ rest) = some (address, rest)) :
    read .dword symbols (keyword ++ (gap ++ (operand ++ rest))) =
      .ok ((Item.offset address).bytes .dword, rest) := by
  have hread : keyword? "offset".toList (keyword ++ (gap ++ (operand ++ rest))) =
      some (operand ++ rest) := keyword?_eq hkeyword hgap hne hstart
  have hencode : Directive.dword.encode address = (Item.offset address).bytes .dword :=
    Directive.encode_eq rfl
  obtain ⟨c, tail, rfl, hc⟩ := exists_cons_of_sameLetters (c := 'o') hkeyword rfl
  obtain ⟨hquote, hmark⟩ : isQuote c = false ∧ c ≠ '?' := by
    rcases eq_or_eq_of_toLower 'o' 'O' rfl hc with rfl | rfl <;> decide
  rw [List.cons_append] at hread ⊢
  simp only [read_cons hquote, value, skipChar?, if_neg hmark, skipOffset?, if_pos, hread,
    hoperand, Except.map, hencode]

end Element

namespace Item.StandsBefore

/-- An element starts with no separator. -/
theorem head (h : item.StandsBefore symbols rest directive word) :
    ∃ c tail, word = c :: tail ∧ isSpace c = false ∧ c ≠ ',' := by
  cases h with
  | @quoted quote text hquote htext =>
    simp only [isQuote, Bool.or_eq_true, beq_iff_eq] at hquote
    refine ⟨quote, text ++ [quote], rfl, ?_⟩
    rcases hquote with rfl | rfl <;> decide
  | number hformed =>
    obtain ⟨c, tail, htext, hc⟩ := hformed.exists_cons
    obtain ⟨-, -, -, hspace, hcomma⟩ := not_special_of_sign_or_digit hc
    exact ⟨c, tail, htext, hspace, hcomma⟩
  | unknown => exact ⟨'?', [], rfl, rfl, by decide⟩
  | @offset keyword gap operand address hkeyword =>
    obtain ⟨c, tail, rfl, hc⟩ := exists_cons_of_sameLetters (c := 'o') hkeyword rfl
    refine ⟨c, tail ++ (gap ++ operand), rfl, ?_⟩
    rcases eq_or_eq_of_toLower 'o' 'O' rfl hc with rfl | rfl <;> decide

/-- An element is read if it is taken, and then its bytes are those that it stands for. -/
theorem read_cases (h : item.StandsBefore symbols rest directive word) :
    (item.Fits directive ∧ ∃ left, Element.read directive symbols (word ++ rest) =
        .ok (item.bytes directive, left) ∧ skipCommas left = skipCommas rest) ∨
      (¬item.Fits directive ∧ ∃ e, Element.read directive symbols (word ++ rest) = .error e) := by
  cases h with
  | @quoted quote text hquote htext =>
    have hread := Element.quoted_eq htext rest
    refine Or.inl ⟨by rintro numeral ⟨⟩, rest, ?_, rfl⟩
    simpa [Element.read, hquote, bytes] using hread
  | @number _ numeral hformed hends =>
    rcases Element.read_number hformed hends with ⟨htakes, hread⟩ | ⟨htakes, hread⟩
    · refine Or.inl ⟨?_, _, hread, skipCommas_skipSpaces rest⟩
      rintro numeral ⟨⟩
      exact htakes
    · exact Or.inr ⟨fun hfits => htakes (hfits numeral rfl), hread⟩
  | unknown =>
    have hzero : directive.encode 0 = Item.unknown.bytes directive := Directive.encode_eq rfl
    refine Or.inl ⟨by rintro numeral ⟨⟩, rest, ?_, rfl⟩
    rw [List.cons_append, Element.read_cons (by decide), ← hzero]
    rfl
  | offset hkeyword hgap hne hstart hoperand =>
    refine Or.inl ⟨by rintro numeral ⟨⟩, rest, ?_, rfl⟩
    rw [List.append_assoc, List.append_assoc]
    exact Element.read_offset_eq hkeyword hgap hne hstart hoperand

end Item.StandsBefore

/-! ## Reading a list -/

namespace Listed

theorem readAll_cons {sep : List Char} (hsep : ∀ c ∈ sep, isSpace c = true ∨ c = ',')
    (hitem : item.StandsBefore symbols rest directive word) :
    Element.readAll directive symbols (sep ++ (word ++ rest)) =
      (Element.read directive symbols (word ++ rest)).bind fun (first, left) =>
        (Element.readAll directive symbols left).map (first ++ ·) := by
  obtain ⟨c, tail, rfl, hspace, hcomma⟩ := hitem.head
  rw [Element.readAll_eq, skipCommas_append hsep, List.cons_append,
    skipCommas_of_head hspace hcomma]
  dsimp only
  cases Element.read directive symbols (c :: (tail ++ rest)) with
  | error e => rfl
  | ok result => rfl

/-- The elements of a list are read if all of them are taken. -/
theorem readAll_eq_ok_iff (h : Listed symbols directive items text) :
    Element.readAll directive symbols text = .ok bytes ↔
      bytes = items.flatMap (Item.bytes directive) ∧ ∀ item ∈ items, item.Fits directive := by
  induction h generalizing bytes with
  | @nil sep hsep =>
    have hskip := skipCommas_append hsep []
    rw [List.append_nil, skipCommas_nil] at hskip
    rw [Element.readAll_eq, hskip]
    simp [eq_comm]
  | @cons sep word rest item items hsep hitem hrest ih =>
    rw [readAll_cons hsep hitem]
    rcases hitem.read_cases with ⟨hfits, left, hread, hleft⟩ | ⟨hfits, e, hread⟩
    · simp only [hread, Except.bind, Element.readAll_of_skipCommas hleft, except_map_eq_ok_iff]
      constructor
      · rintro ⟨more, hmore, rfl⟩
        obtain ⟨rfl, hall⟩ := ih.1 hmore
        exact ⟨rfl, List.forall_mem_cons.2 ⟨hfits, hall⟩⟩
      · rintro ⟨rfl, hall⟩
        exact ⟨_, ih.2 ⟨rfl, fun other hmem => hall other (List.mem_cons_of_mem _ hmem)⟩, rfl⟩
    · simp only [hread, Except.bind]
      refine ⟨nofun, fun ⟨_, hall⟩ => ?_⟩
      exact absurd (hall item List.mem_cons_self) hfits

end Listed

/-! ## Lines -/

namespace Declaration

/-- An accepted line lists elements, and it declares their bytes, one after the other.  Every
number among them is in range, or it is `2 ^ 32` above or below such a number. -/
theorem decode_listed {line : List Char} {declaration : Declaration}
    (h : decode symbols line = .ok declaration) :
    ∃ list, head line = .ok (declaration.label, declaration.directive, list) ∧
      (∃ items, Listed symbols declaration.directive items list) ∧
      ∀ items, Listed symbols declaration.directive items list →
        declaration.bytes = items.flatMap (Item.bytes declaration.directive) ∧
          ∀ numeral, .number numeral ∈ items → declaration.directive.Takes numeral.value := by
  obtain ⟨list, hhead, hread⟩ := decode_eq_ok h
  refine ⟨list, hhead, Element.exists_listed hread, fun items hitems => ?_⟩
  obtain ⟨hbytes, hfits⟩ := hitems.readAll_eq_ok_iff.1 hread
  exact ⟨hbytes, fun numeral hmem => hfits _ hmem numeral rfl⟩

/-- A number that is far below every byte. -/
def farBelow : Numeral :=
  ⟨true, ['0', 'F', 'F', 'F', 'F', 'F', 'F', 'F', 'F'], some 'h'⟩

theorem listed_farBelow : Listed symbols .byte [.number farBelow] farBelow.text := by
  have hformed : farBelow.WellFormed :=
    ⟨by simp [farBelow], by simp [farBelow, isHexDigit], by simp [farBelow], by simp [farBelow]⟩
  have hends : farBelow.EndsBefore [] := ⟨rfl, by simp [farBelow]⟩
  exact List.append_nil farBelow.text ▸ .cons_word (.number hformed hends) .empty

/-- The word of this number is the word of the number one. -/
theorem decode_farBelow :
    decode ⟨.empty, .empty, .new 0⟩ ("db ".toList ++ farBelow.text) = .ok ⟨none, .byte, [1]⟩ := by
  decide +kernel

theorem decode_listed_farBelow :
    [Item.number farBelow].flatMap (Item.bytes .byte) = [1] ∧
      Directive.byte.Takes farBelow.value := by
  obtain ⟨list, hhead, -, hlisted⟩ := decode_listed decode_farBelow
  have hlist : list = farBelow.text := by
    have hhead' : head ("db ".toList ++ farBelow.text) = .ok (none, .byte, farBelow.text) := rfl
    rw [hhead'] at hhead
    cases hhead
    rfl
  subst hlist
  obtain ⟨hbytes, htakes⟩ := hlisted _ listed_farBelow
  exact ⟨hbytes.symm, htakes _ List.mem_cons_self⟩

/-- Not every number of an accepted line is in range. -/
theorem not_decode_holds :
    ¬∀ (symbols : Symbols) (line list : List Char) (declaration : Declaration)
      (items : List Item), decode symbols line = .ok declaration →
        head line = .ok (declaration.label, declaration.directive, list) →
        Listed symbols declaration.directive items list →
        ∀ numeral, .number numeral ∈ items → declaration.directive.Holds numeral.value := by
  intro h
  have hholds := h _ _ _ _ _ decode_farBelow rfl listed_farBelow farBelow List.mem_cons_self
  exact absurd hholds (by decide)

end Declaration

end X86Listing
