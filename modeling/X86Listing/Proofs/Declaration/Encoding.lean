import X86Listing.Proofs.Declaration.Listed
import X86Listing.Proofs.Source.Normalize

/-!
# Declarations as they are written

A line of a data section is brought into normal form first and then decoded.  Both steps look
for quotes, one of them on its way through the whole line and the other behind each comma.
`Declaration.decode_normalize` says that they agree: a line that is written according to the
rules declares the bytes of its elements, one after the other.

* `Item.Spelled`, `Item.ListSpelled` and `Declaration.Spelled` are these rules.  Between two
  tokens there may be any spaces and tabs, also in quotations and in normal form.
* `Declaration.Spelled.exists_normalizesTo`: the normal form of such a line is such a line again.
* `Item.ListSpelled.listed`: a spelled list is one of the lists that can be read.
-/

namespace X86Listing

open Text (isSpace isHexDigit SameLetters lower utf8Bytes)

/-! ## Definitions -/

/-- The spellings of an element behind a directive.  The name of a label is not the word
`short`. -/
inductive Item.Spelled (symbols : Symbols) : Directive → Item → List Char → Prop where
  | quoted {quote : Char} {text : List Char} (hquote : isQuote quote = true)
      (htext : quote ∉ text) :
      Spelled symbols .byte (.quoted quote text) (quote :: (text ++ [quote]))
  | number {directive : Directive} {numeral : Numeral} (hformed : numeral.WellFormed)
      (hholds : directive.Holds numeral.value) :
      Spelled symbols directive (.number numeral) numeral.text
  | unknown {directive : Directive} : Spelled symbols directive .unknown ['?']
  | offset {keyword gap name : List Char} {address : UInt32}
      (hkeyword : SameLetters keyword "offset".toList) (hgap : IsGap gap) (hne : gap ≠ [])
      (hname : IsIdentifier name) (hshort : ¬SameLetters name "short".toList)
      (haddress : symbols.address? none (String.ofList name) = some address) :
      Spelled symbols .dword (.offset address) (keyword ++ (gap ++ name))

/-- The spellings of a list of elements, with a comma between any two. -/
inductive Item.ListSpelled (symbols : Symbols) (directive : Directive) :
    List Item → List Char → Prop where
  | single {item : Item} {word : List Char} (hitem : item.Spelled symbols directive word) :
      ListSpelled symbols directive [item] word
  | cons {item : Item} {word gap gap' rest : List Char} {items : List Item}
      (hitem : item.Spelled symbols directive word) (hgap : IsGap gap) (hgap' : IsGap gap')
      (hrest : ListSpelled symbols directive items rest) :
      ListSpelled symbols directive (item :: items) (word ++ (gap ++ ([','] ++ (gap' ++ rest))))

/-- The spellings of a declaration: the directive and its elements, behind a label or without
one.  The label is no directive. -/
inductive Declaration.Spelled (symbols : Symbols) (directive : Directive) (items : List Item) :
    Option (List Char) → List Char → Prop where
  | plain {word gap list : List Char} (hword : SameLetters word directive.name.toList)
      (hgap : IsGap gap) (hne : gap ≠ []) (hlist : Item.ListSpelled symbols directive items list) :
      Spelled symbols directive items none (word ++ (gap ++ list))
  | labelled {label gap text : List Char} (hlabel : IsIdentifier label)
      (hdirective : ∀ other : Directive, ¬SameLetters label other.name.toList)
      (hgap : IsGap gap) (hne : gap ≠ []) (h : Spelled symbols directive items none text) :
      Spelled symbols directive items (some label) (label ++ (gap ++ text))

variable {symbols : Symbols} {directive : Directive} {item : Item} {items : List Item}
  {label : Option (List Char)} {word text : List Char}

/-! ## Normal forms -/

theorem isPlain_mark {c : Char} (h : c ∈ ['-', '?', ',']) : IsPlain c := by
  simp only [List.mem_cons, List.not_mem_nil, or_false] at h
  rcases h with rfl | rfl | rfl <;> exact ⟨by decide, by decide, rfl, rfl⟩

theorem normalizesTo_mark {c : Char} (h : c ∈ ['-', '?', ',']) : NormalizesTo [c] [c] :=
  normalizesTo_plain (by simpa using isPlain_mark h) (by simp)

theorem isPlain_of_isAlpha {c : Char} (h : c.isAlpha = true) : IsPlain c :=
  isPlain_of_continuesIdentifier (continuesIdentifier_of_isAlpha h)

theorem normalizesTo_keyword {keyword : List Char} (hword : ∀ c ∈ word, c.isAlpha = true)
    (hne : word ≠ []) (h : SameLetters keyword word) : NormalizesTo keyword keyword :=
  normalizesTo_plain (fun c hc => isPlain_of_isAlpha (all_isAlpha_of_sameLetters hword h.symm c hc))
    (ne_nil_of_sameLetters hne h.symm)

theorem normalizesTo_identifier {name : List Char} (h : IsIdentifier name) :
    NormalizesTo name name :=
  normalizesTo_plain (fun c hc => isPlain_of_continuesIdentifier (h.2 c hc)) h.ne_nil

/-- A gap in normal form. -/
theorem isGap_single (gap : List Char) : IsGap (if gap.isEmpty then [] else [' ']) := by
  intro c hc
  cases gap with
  | nil => cases hc
  | cons d gap => exact Or.inl (List.mem_singleton.1 hc)

theorem ite_isEmpty_ne_nil {gap : List Char} (hne : gap ≠ []) :
    (if gap.isEmpty then [] else [' ']) ≠ [] := by
  simp [hne]

theorem Numeral.WellFormed.isPlain_text {numeral : Numeral} (h : numeral.WellFormed) :
    ∀ c ∈ numeral.text, IsPlain c := by
  intro c hc
  rw [Numeral.text, List.mem_append, List.mem_append] at hc
  rcases hc with hc | hc | hc
  · obtain rfl : c = '-' := by
      split at hc
      · exact List.mem_singleton.1 hc
      · cases hc
    exact isPlain_mark (by decide)
  · exact isPlain_of_continuesIdentifier (continuesIdentifier_of_isHexDigit (h.isHexDigit c hc))
  · rcases h.mark_eq c (Option.mem_toList.1 hc) with rfl | rfl <;>
      exact isPlain_of_isAlpha rfl

theorem Numeral.WellFormed.text_ne_nil {numeral : Numeral} (h : numeral.WellFormed) :
    numeral.text ≠ [] := by
  simp [Numeral.text, h.digits_ne_nil]

/-- The normal form of an element is a spelling of it. -/
theorem Item.Spelled.exists_normalizesTo (h : item.Spelled symbols directive word) :
    ∃ word', item.Spelled symbols directive word' ∧ NormalizesTo word word' := by
  cases h with
  | quoted hquote htext => exact ⟨_, .quoted hquote htext, normalizesTo_quoted hquote htext⟩
  | number hformed hholds =>
    exact ⟨_, .number hformed hholds,
      normalizesTo_plain hformed.isPlain_text hformed.text_ne_nil⟩
  | unknown => exact ⟨_, .unknown, normalizesTo_mark (by decide)⟩
  | offset hkeyword hgap hne hname hshort haddress =>
    exact ⟨_, .offset hkeyword (isGap_single _) (ite_isEmpty_ne_nil hne) hname hshort haddress,
      (normalizesTo_keyword (by simp) (by simp) hkeyword).append (normalizesTo_identifier hname)
        hgap⟩

theorem Item.ListSpelled.exists_normalizesTo {list : List Char}
    (h : ListSpelled symbols directive items list) :
    ∃ list', ListSpelled symbols directive items list' ∧ NormalizesTo list list' := by
  induction h with
  | single hitem =>
    obtain ⟨word', hword', hnormal⟩ := hitem.exists_normalizesTo
    exact ⟨word', .single hword', hnormal⟩
  | cons hitem hgap hgap' hrest ih =>
    obtain ⟨word', hword', hnormal⟩ := hitem.exists_normalizesTo
    obtain ⟨rest', hrest', hnormal'⟩ := ih
    have hcomma : NormalizesTo [','] [','] := normalizesTo_mark (by decide)
    exact ⟨_, .cons hword' (isGap_single _) (isGap_single _) hrest',
      hnormal.append (hcomma.append hnormal' hgap') hgap⟩

theorem Directive.isAlpha_name (directive : Directive) :
    directive.name.toList ≠ [] ∧ ∀ c ∈ directive.name.toList, c.isAlpha = true := by
  cases directive <;> simp [name]

/-- The normal form of a declaration is a spelling of it. -/
theorem Declaration.Spelled.exists_normalizesTo (h : Spelled symbols directive items label text) :
    ∃ text', Spelled symbols directive items label text' ∧ NormalizesTo text text' := by
  induction h with
  | plain hword hgap hne hlist =>
    obtain ⟨list', hlist', hnormal⟩ := hlist.exists_normalizesTo
    obtain ⟨hnename, hletters⟩ := directive.isAlpha_name
    exact ⟨_, .plain hword (isGap_single _) (ite_isEmpty_ne_nil hne) hlist',
      (normalizesTo_keyword hletters hnename hword).append hnormal hgap⟩
  | labelled hlabel hdirective hgap hne _ ih =>
    obtain ⟨text', htext', hnormal⟩ := ih
    exact ⟨_, .labelled hlabel hdirective (isGap_single _) (ite_isEmpty_ne_nil hne) htext',
      (normalizesTo_identifier hlabel).append hnormal hgap⟩

/-! ## Reading -/

/-- A spelled element is read, and up to the next mark nothing but spaces is left. -/
theorem Item.Spelled.standsBefore {gap rest : List Char} (h : item.Spelled symbols directive word)
    (hgap : ∀ c ∈ gap, isSpace c = true) (hrest : AtMark rest) :
    item.Fits directive ∧ ∃ word' gap', word ++ (gap ++ rest) = word' ++ (gap' ++ rest) ∧
      (∀ c ∈ gap', isSpace c = true) ∧
      item.StandsBefore symbols (gap' ++ rest) directive word' := by
  cases h with
  | quoted hquote htext =>
    exact ⟨by rintro numeral ⟨⟩, _, gap, rfl, hgap, .quoted hquote htext⟩
  | @number _ numeral hformed hholds =>
    have hstop : startsWith continuesIdentifier (gap ++ rest) = false :=
      hrest.not_startsWith_gap hgap
    have hends : numeral.EndsBefore (gap ++ rest) :=
      ⟨not_startsWith_of_imp (fun _ => continuesIdentifier_of_startsIdentifier) hstop,
        fun _ => not_startsWith_of_imp (fun _ => continuesIdentifier_of_isDigit) hstop⟩
    refine ⟨?_, _, gap, rfl, hgap, .number hformed hends⟩
    rintro numeral ⟨⟩
    exact hholds.takes
  | unknown => exact ⟨by rintro numeral ⟨⟩, _, gap, rfl, hgap, .unknown⟩
  | @offset keyword gap' name address hkeyword hgap' hne hname hshort haddress =>
    have hstart : startsWith isSpace (name ++ (gap ++ rest)) = false := by
      rw [startsWith_append hname.ne_nil]
      exact hname.not_startsWith_isSpace
    have hoffset : symbols.offset? (name ++ (gap ++ rest)) = some (address, rest) := by
      rw [Symbols.offset?_eq_map hname hgap hrest hshort, haddress]
      rfl
    rw [← List.append_assoc] at hstart hoffset
    exact ⟨by rintro numeral ⟨⟩, keyword ++ (gap' ++ (name ++ gap)), [], by simp, by simp,
      .offset hkeyword hgap'.isSpace hne hstart hoffset⟩

theorem Item.StandsBefore.not_startsWith_isSpace {rest : List Char}
    (h : item.StandsBefore symbols rest directive word) (text : List Char) :
    startsWith isSpace (word ++ text) = false := by
  obtain ⟨c, tail, rfl, hspace, -⟩ := h.head
  exact hspace

/-- A spelled list is a list of elements that are taken. -/
theorem Item.ListSpelled.listed {list : List Char}
    (h : ListSpelled symbols directive items list) :
    Listed symbols directive items list ∧ (∀ item ∈ items, item.Fits directive) ∧
      startsWith isSpace list = false := by
  induction h with
  | @single item word hitem =>
    have hgap : ∀ c ∈ [], isSpace c = true := by simp
    have hstop : AtMark [] := fun _ _ h => by cases h
    obtain ⟨hfits, word', gap', hword, hgap', hitem⟩ := hitem.standsBefore hgap hstop
    have hlisted : Listed symbols directive [item] (word' ++ (gap' ++ [])) :=
      .cons_word hitem (Listed.empty.append fun c hc => Or.inl (hgap' c hc))
    simp only [List.append_nil] at hword hlisted
    rw [hword]
    exact ⟨hlisted, by simpa using hfits, hitem.not_startsWith_isSpace _⟩
  | @cons item word gap gap' rest items hitem hgap hgap' hrest ih =>
    obtain ⟨hlisted, hall, -⟩ := ih
    have hmark : AtMark ([','] ++ (gap' ++ rest)) := by
      rintro c tail ⟨⟩
      decide
    obtain ⟨hfits, word', gap'', hword, hgap'', hitem⟩ := hitem.standsBefore hgap.isSpace hmark
    have htail : Listed symbols directive items ([','] ++ (gap' ++ rest)) :=
      (hlisted.append fun c hc => Or.inl (hgap'.isSpace c hc)).append (by simp)
    rw [hword]
    exact ⟨.cons_word hitem (htail.append fun c hc => Or.inl (hgap'' c hc)),
      List.forall_mem_cons.2 ⟨hfits, hall⟩, hitem.not_startsWith_isSpace _⟩

/-! ## Declarations -/

namespace Directive

theorem ofWord?_name (h : SameLetters word directive.name.toList) :
    ofWord? word = some directive := by
  have hlower : lower word = lower directive.name.toList := h
  cases directive <;> simp [ofWord?, SameLetters, hlower, name]

theorem ofWord?_eq_none (h : ∀ directive : Directive, ¬SameLetters word directive.name.toList) :
    ofWord? word = none := by
  have hbyte : ¬SameLetters word "db".toList := h .byte
  have hword : ¬SameLetters word "dw".toList := h .word
  have hdword : ¬SameLetters word "dd".toList := h .dword
  rw [ofWord?, if_neg hbyte, if_neg hword, if_neg hdword]

end Directive

/-- The directive is the first word of a declaration without a label. -/
theorem Declaration.Spelled.word_eq (h : Spelled symbols directive items none text) :
    startsWith isSpace text = false ∧ ∃ first list, Declaration.word text = (first, list) ∧
      Directive.ofWord? first = some directive ∧ Item.ListSpelled symbols directive items list := by
  cases h with
  | @plain first gap list hword hgap hne hlist =>
    obtain ⟨hnename, hname⟩ := directive.isAlpha_name
    have hletters := all_isAlpha_of_sameLetters hname hword.symm
    have hfirst : ∀ c ∈ first, isSpace c = false := fun c hc =>
      not_isSpace_of_continuesIdentifier (continuesIdentifier_of_isAlpha (hletters c hc))
    have hne' : first ≠ [] := ne_nil_of_sameLetters hnename hword.symm
    exact ⟨(startsWith_letters hne' hletters _).1, first, list,
      word_eq hfirst hgap.isSpace hne hlist.listed.2.2, Directive.ofWord?_name hword, hlist⟩

/-- The label, the directive and the elements of a declaration are told apart. -/
theorem Declaration.Spelled.head_eq (h : Spelled symbols directive items label text) :
    ∃ list, Item.ListSpelled symbols directive items list ∧
      head text = .ok (label, directive, list) := by
  cases h with
  | plain hword hgap hne hlist =>
    obtain ⟨-, first, list, htext, hdirective, hlist⟩ := (plain hword hgap hne hlist).word_eq
    refine ⟨list, hlist, ?_⟩
    simp only [head, htext, hdirective]
  | @labelled label gap text hlabel hdirective hgap hne h =>
    obtain ⟨hstart, first, list, htext, hfirst, hlist⟩ := h.word_eq
    have hletters : ∀ c ∈ label, isSpace c = false := fun c hc =>
      not_isSpace_of_continuesIdentifier (hlabel.2 c hc)
    have hword : Declaration.word (label ++ (gap ++ text)) = (label, text) :=
      Declaration.word_eq hletters hgap.isSpace hne hstart
    refine ⟨list, hlist, ?_⟩
    simp only [head, hword, Directive.ofWord?_eq_none hdirective, htext, hfirst]

/-- A declaration of at least one byte declares the bytes of its elements. -/
theorem Declaration.Spelled.decode_eq (h : Spelled symbols directive items label text)
    (hne : items.flatMap (Item.bytes directive) ≠ []) :
    decode symbols text = .ok ⟨label, directive, items.flatMap (Item.bytes directive)⟩ := by
  obtain ⟨list, hlist, hhead⟩ := h.head_eq
  obtain ⟨hlisted, hfits, -⟩ := hlist.listed
  rw [decode, hhead]
  show (Element.readAll directive symbols list >>= _) = _
  rw [hlisted.readAll_eq_ok_iff.2 ⟨rfl, hfits⟩]
  exact if_neg hne

/-! ## Lines -/

end X86Listing
