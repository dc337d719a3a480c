import X86Listing.Declaration
import X86Listing.Proofs.Answer
import X86Listing.Proofs.Operand.Names

/-!
# Tables of code addresses

A table of code addresses is declared by the names of labels, each behind the word
`offset`, on one line or on several.

* `OffsetsSpelled` relates names to the elements that list them, and `TableRow` to
  the line that continues a table.
* `TableRow.decode_eq_ok` and `TableRow.decode_labelled` say what such a line
  declares if it declares anything: the addresses of its names, lowest byte first.

The second one has to rule out that the label of the table is itself read as a
directive.  Then the directive behind it would be an element, and it is none
(`TableRow.readAll_ne_ok`).
-/

namespace X86Listing

open Text (isSpace isHexDigit SameLetters lower)

/-! ## Definitions -/

/-- The elements that list names, with commas between them. -/
inductive OffsetsSpelled : List (List Char) → List Char → Prop where
  | last {keyword gap name : List Char} (hkeyword : SameLetters keyword "offset".toList)
      (hgap : ∀ c ∈ gap, isSpace c = true) (hne : gap ≠ []) (hname : IsIdentifier name) :
      OffsetsSpelled [name] (keyword ++ (gap ++ name))
  | cons {keyword gap name gap' sep rest : List Char} {names : List (List Char)}
      (hkeyword : SameLetters keyword "offset".toList) (hgap : ∀ c ∈ gap, isSpace c = true)
      (hne : gap ≠ []) (hname : IsIdentifier name) (hgap' : ∀ c ∈ gap', isSpace c = true)
      (hsep : ∀ c ∈ sep, isSpace c = true ∨ c = ',') (hrest : OffsetsSpelled names rest) :
      OffsetsSpelled (name :: names)
        (keyword ++ (gap ++ (name ++ (gap' ++ ',' :: (sep ++ rest)))))

/-- A line `dd offset name, ...`. -/
def TableRow (names : List (List Char)) (text : List Char) : Prop :=
  ∃ directive gap list, SameLetters directive "dd".toList ∧ (∀ c ∈ gap, isSpace c = true) ∧
    gap ≠ [] ∧ OffsetsSpelled names list ∧ text = directive ++ (gap ++ list)

/-! ## Elements -/

/-- The first letter of a keyword. -/
theorem exists_cons_of_sameLetters {c : Char} {word text : List Char}
    (h : SameLetters text word) (hword : word.head? = some c) :
    ∃ d tail, text = d :: tail ∧ d.toLower = c.toLower := by
  obtain ⟨word, rfl⟩ := List.head?_eq_some_iff.1 hword
  cases text with
  | nil => cases h
  | cons d tail => exact ⟨d, tail, rfl, (List.cons.inj h).1⟩

namespace Element

variable {symbols : Symbols} {text text' : List Char}

theorem readAll_of_skipCommas {directive : Directive} (h : skipCommas text = skipCommas text') :
    readAll directive symbols text = readAll directive symbols text' := by
  rw [readAll_eq, readAll_eq, h]

/-- The elements of a text that starts with one. -/
theorem readAll_eq_ok {directive : Directive} {bytes : List UInt8}
    (hskip : skipCommas text = text) (hne : text ≠ [])
    (h : readAll directive symbols text = .ok bytes) :
    ∃ first left more, read directive symbols text = .ok (first, left) ∧
      readAll directive symbols left = .ok more ∧ bytes = first ++ more := by
  rw [readAll_eq, hskip] at h
  obtain ⟨c, tail, rfl⟩ := List.exists_cons_of_ne_nil hne
  simp only at h
  cases hread : read directive symbols (c :: tail) with
  | error e =>
    rw [hread] at h
    cases h
  | ok result =>
    obtain ⟨first, left⟩ := result
    simp only [hread] at h
    cases hmore : readAll directive symbols left with
    | error e =>
      rw [hmore] at h
      cases h
    | ok more =>
      rw [hmore] at h
      cases h
      exact ⟨first, left, more, rfl, hmore, rfl⟩

/-- An element with the name of a label is the address of that label. -/
theorem read_offset {keyword gap name gap' rest : List Char} {bytes : List UInt8}
    {left : List Char}
    (hkeyword : SameLetters keyword "offset".toList) (hgap : ∀ c ∈ gap, isSpace c = true)
    (hne : gap ≠ []) (hname : IsIdentifier name) (hgap' : ∀ c ∈ gap', isSpace c = true)
    (hrest : AtMark rest)
    (h : read .dword symbols (keyword ++ (gap ++ (name ++ (gap' ++ rest)))) = .ok (bytes, left)) :
    left = rest ∧ ∃ value, symbols.address? none (String.ofList name) = some value ∧
      bytes = bytesOfWord value := by
  have hstart : startsWith isSpace (name ++ (gap' ++ rest)) = false := by
    rw [startsWith_append hname.ne_nil]
    exact hname.not_startsWith_isSpace
  have hskip : keyword? "offset".toList (keyword ++ (gap ++ (name ++ (gap' ++ rest)))) =
      some (name ++ (gap' ++ rest)) := keyword?_eq hkeyword hgap hne hstart
  obtain ⟨c, tail, rfl, hc⟩ := exists_cons_of_sameLetters (c := 'o') hkeyword rfl
  have hmark : c ≠ '?' := by
    rintro rfl
    cases hc
  simp only [List.cons_append] at h hskip
  simp only [read, value, skipChar?, if_neg hmark, skipOffset?, if_pos, hskip] at h
  cases hoffset : symbols.offset? (name ++ (gap' ++ rest)) with
  | none =>
    rw [hoffset] at h
    cases h
  | some result =>
    rw [hoffset] at h
    cases h
    obtain ⟨hleft, haddress⟩ := Symbols.offset?_name hname hgap' hrest hoffset
    exact ⟨hleft, _, haddress, rfl⟩

end Element

variable {symbols : Symbols} {names : List (List Char)} {text : List Char}

/-- The elements start with a word. -/
theorem OffsetsSpelled.head (h : OffsetsSpelled names text) :
    ∃ c tail, text = c :: tail ∧ isSpace c = false ∧ c ≠ ',' := by
  have hword {keyword rest : List Char} (hkeyword : SameLetters keyword "offset".toList) :
      ∃ c tail, keyword ++ rest = c :: tail ∧ isSpace c = false ∧ c ≠ ',' := by
    obtain ⟨c, tail, rfl, hc⟩ := exists_cons_of_sameLetters (c := 'o') hkeyword rfl
    have hletter : c.isAlpha = true := by
      rw [← Char.isAlpha_toLower_eq_isAlpha, hc]
      rfl
    refine ⟨c, tail ++ rest, rfl, ?_, ?_⟩
    · exact not_isSpace_of_continuesIdentifier (continuesIdentifier_of_isAlpha hletter)
    · rintro rfl
      cases hletter
  cases h with
  | last hkeyword => exact hword hkeyword
  | cons hkeyword => exact hword hkeyword

theorem skipCommas_of_head {c : Char} (hspace : isSpace c = false) (hcomma : c ≠ ',')
    (tail : List Char) : skipCommas (c :: tail) = c :: tail :=
  dropWhile_of_not_startsWith (by simp [startsWith, hspace, hcomma])

theorem OffsetsSpelled.skipCommas_eq (h : OffsetsSpelled names text) :
    skipCommas text = text ∧ text ≠ [] := by
  obtain ⟨c, tail, rfl, hspace, hcomma⟩ := h.head
  exact ⟨skipCommas_of_head hspace hcomma tail, by simp⟩

/-- The address of a label of the code, without a segment. -/
theorem Symbols.address?_of_label {name : String} {value value' : UInt32}
    (hlabel : symbols.labels.get? name = some value)
    (h : symbols.address? none name = some value') : value' = value := by
  simp only [address?, hlabel, Option.some_or] at h
  exact (Option.some.inj h).symm

/-- Elements that list labels declare the addresses of these labels. -/
theorem OffsetsSpelled.readAll_eq_ok (h : OffsetsSpelled names text)
    (hlabels : ∀ name ∈ names, ∃ value, symbols.labels.get? (String.ofList name) = some value)
    {bytes : List UInt8} (hread : Element.readAll .dword symbols text = .ok bytes) :
    ∃ values : List UInt32, names.map (fun name => symbols.labels.get? (String.ofList name)) =
        values.map some ∧ bytes = values.flatMap bytesOfWord := by
  induction h generalizing bytes with
  | @last keyword gap name hkeyword hgap hne hname =>
    obtain ⟨hskip, htext⟩ := (OffsetsSpelled.last hkeyword hgap hne hname).skipCommas_eq
    obtain ⟨first, left, more, hfirst, hmore, rfl⟩ := Element.readAll_eq_ok hskip htext hread
    obtain ⟨value, hvalue⟩ := hlabels name List.mem_cons_self
    have hmark : AtMark [] := fun _ _ h => by cases h
    have hfirst' : Element.read .dword symbols (keyword ++ (gap ++ (name ++ ([] ++ [])))) =
        .ok (first, left) := by
      simpa using hfirst
    obtain ⟨rfl, value', haddress, rfl⟩ := Element.read_offset hkeyword hgap hne hname (by simp)
      hmark hfirst'
    obtain rfl := Symbols.address?_of_label hvalue haddress
    rw [Element.readAll_eq] at hmore
    cases hmore
    exact ⟨[value'], by simp [hvalue], by simp⟩
  | @cons keyword gap name gap' sep rest names hkeyword hgap hne hname hgap' hsep hrest ih =>
    obtain ⟨hskip, htext⟩ :=
      (OffsetsSpelled.cons hkeyword hgap hne hname hgap' hsep hrest).skipCommas_eq
    obtain ⟨first, left, more, hfirst, hmore, rfl⟩ := Element.readAll_eq_ok hskip htext hread
    obtain ⟨value, hvalue⟩ := hlabels name List.mem_cons_self
    have hmark : AtMark (',' :: (sep ++ rest)) := by
      intro c tail hc
      cases hc
      decide
    obtain ⟨rfl, value', haddress, rfl⟩ := Element.read_offset hkeyword hgap hne hname hgap'
      hmark hfirst
    obtain rfl := Symbols.address?_of_label hvalue haddress
    have hrun : ∀ c ∈ ',' :: sep, isSpace c = true ∨ c = ',' :=
      List.forall_mem_cons.2 ⟨Or.inr rfl, hsep⟩
    have hsame : skipCommas (',' :: (sep ++ rest)) = skipCommas rest := skipCommas_append hrun rest
    rw [Element.readAll_of_skipCommas hsame] at hmore
    obtain ⟨values, hvalues, rfl⟩ :=
      ih (fun name hmem => hlabels name (List.mem_cons_of_mem _ hmem)) hmore
    exact ⟨value' :: values, by simp [hvalue, hvalues], by simp⟩

/-! ## Rows -/

namespace Declaration

theorem word_eq {first gap rest : List Char} (hfirst : ∀ c ∈ first, isSpace c = false)
    (hgap : ∀ c ∈ gap, isSpace c = true) (hne : gap ≠ [])
    (hrest : startsWith isSpace rest = false) :
    word (first ++ (gap ++ rest)) = (first, rest) := by
  have hletters : ∀ c ∈ first, (!isSpace c) = true := by
    intro c hc
    rw [hfirst c hc]
    rfl
  have hnext : startsWith (fun c => !isSpace c) (gap ++ rest) = false := by
    rw [startsWith_append hne]
    obtain ⟨c, gap, rfl⟩ := List.exists_cons_of_ne_nil hne
    rw [startsWith, hgap c List.mem_cons_self]
    rfl
  rw [word, takeWhile_run hletters hnext, dropWhile_run hletters hnext,
    skipSpaces_run hgap hrest]

theorem decode_eq_ok {line : List Char} {declaration : Declaration}
    (h : decode symbols line = .ok declaration) :
    ∃ rest, head line = .ok (declaration.label, declaration.directive, rest) ∧
      Element.readAll declaration.directive symbols rest = .ok declaration.bytes := by
  obtain ⟨⟨label, directive, rest⟩, hhead, h⟩ := except_bind_eq_ok h
  obtain ⟨bytes, hread, h⟩ := except_bind_eq_ok h
  split at h
  · cases h
  · cases h
    exact ⟨rest, hhead, hread⟩

/-- The label of a line is its first word. -/
theorem word_of_label {line label : List Char} {declaration : Declaration}
    (h : decode symbols line = .ok declaration) (hlabel : declaration.label = some label) :
    (word line).1 = label := by
  obtain ⟨rest, hhead, -⟩ := decode_eq_ok h
  rw [hlabel] at hhead
  unfold head at hhead
  simp only at hhead
  split at hhead
  · cases hhead
  · split at hhead
    · cases hhead
      rfl
    · cases hhead

end Declaration

theorem Directive.ofWord?_dword {word : List Char} (h : SameLetters word "dd".toList) :
    ofWord? word = some .dword := by
  have hlower : lower word = lower "dd".toList := h
  simp [ofWord?, SameLetters, hlower]

namespace TableRow

/-- The directive of a row and the elements behind it. -/
theorem word_eq (h : TableRow names text) :
    ∃ directive list, Declaration.word text = (directive, list) ∧
      Directive.ofWord? directive = some .dword ∧ OffsetsSpelled names list := by
  obtain ⟨directive, gap, list, hdirective, hgap, hne, hlist, rfl⟩ := h
  refine ⟨directive, list, Declaration.word_eq ?_ hgap hne ?_, Directive.ofWord?_dword hdirective,
    hlist⟩
  · intro c hc
    have hletters := all_isAlpha_of_sameLetters (by simp) hdirective.symm c hc
    exact not_isSpace_of_continuesIdentifier (continuesIdentifier_of_isAlpha hletters)
  · obtain ⟨c, tail, rfl, hspace, -⟩ := hlist.head
    exact hspace

theorem not_startsWith_isSpace (h : TableRow names text) : startsWith isSpace text = false := by
  obtain ⟨directive, gap, list, hdirective, hgap, hne, hlist, rfl⟩ := h
  obtain ⟨c, tail, rfl, hc⟩ := exists_cons_of_sameLetters (c := 'd') hdirective rfl
  rcases eq_or_eq_of_toLower 'd' 'D' rfl hc with rfl | rfl <;> rfl

/-- The directive of a row is no number, though its letters are hexadecimal digits. -/
theorem number?_eq_none (h : TableRow names text) : number? text = none := by
  obtain ⟨directive, gap, list, hdirective, hgap, hne, -, rfl⟩ := h
  obtain ⟨c, tail, rfl, hc, htail⟩ := List.map_eq_cons_iff.1 hdirective
  obtain ⟨d, tail, rfl, hd, htail⟩ := List.map_eq_cons_iff.1 htail
  obtain rfl := List.map_eq_nil_iff.1 htail
  have hdigits : ∀ x ∈ [c, d], isHexDigit x = true := by
    rcases eq_or_eq_of_toLower 'd' 'D' rfl hc with rfl | rfl <;>
      rcases eq_or_eq_of_toLower 'd' 'D' rfl hd with rfl | rfl <;> simp [isHexDigit]
  have hnumeral : numeral? false [c, d] = none := by
    rcases eq_or_eq_of_toLower 'd' 'D' rfl hc with rfl | rfl <;> rfl
  have hsign (rest : List Char) : skipSign ([c, d] ++ rest) = (false, [c, d] ++ rest) := by
    rcases eq_or_eq_of_toLower 'd' 'D' rfl hc with rfl | rfl <;> rfl
  obtain ⟨space, gap, rfl⟩ := List.exists_cons_of_ne_nil hne
  have hstop : startsWith continuesIdentifier (space :: gap ++ list) = false :=
    not_continuesIdentifier_of_stop (Or.inl (hgap space List.mem_cons_self))
  have hnext : startsWith isHexDigit (space :: gap ++ list) = false :=
    not_startsWith_of_imp (fun _ => continuesIdentifier_of_isHexDigit) hstop
  simp only [number?, hsign, takeWhile_run hdigits hnext, dropWhile_run hdigits hnext,
    skipMark_of_not_continues hstop, hnumeral]
  split <;> rfl

/-- No row can be read as the elements of a declaration. -/
theorem readAll_ne_ok {directive : Directive} {bytes : List UInt8} (h : TableRow names text) :
    Element.readAll directive symbols text ≠ .ok bytes := by
  intro hread
  have hnumber := h.number?_eq_none
  obtain ⟨word, gap, list, hword, hgap, hne, -, rfl⟩ := h
  obtain ⟨c, tail, rfl, hc⟩ := exists_cons_of_sameLetters (c := 'd') hword rfl
  rw [List.cons_append] at hread hnumber
  generalize tail ++ (gap ++ list) = rest at hread hnumber
  have hfirst : c ≠ '?' ∧ c ≠ ',' ∧ isSpace c = false ∧ isQuote c = false := by
    rcases eq_or_eq_of_toLower 'd' 'D' rfl hc with rfl | rfl <;> decide
  obtain ⟨hmark, hcomma, hspace, hquote⟩ := hfirst
  obtain ⟨first, left, more, hread, -⟩ :=
    Element.readAll_eq_ok (skipCommas_of_head hspace hcomma _) (by simp) hread
  have hoffset : Element.skipOffset? directive (c :: rest) = none := by
    unfold Element.skipOffset?
    split
    · simp [keyword?, skipWord?, SameLetters, hc]
    · rfl
  simp only [Element.read, hquote, Element.value, skipChar?, if_neg hmark, hoffset,
    hnumber] at hread
  split at hread
  · next hbyte => cases hbyte.2
  · cases hread

/-- A row declares the addresses of its names, under the label before it. -/
theorem decode_eq_ok (h : TableRow names text)
    (hlabels : ∀ name ∈ names, ∃ value, symbols.labels.get? (String.ofList name) = some value)
    {declaration : Declaration} (hdecode : Declaration.decode symbols text = .ok declaration) :
    declaration.label = none ∧ ∃ values : List UInt32,
      names.map (fun name => symbols.labels.get? (String.ofList name)) = values.map some ∧
        declaration.bytes = values.flatMap bytesOfWord := by
  obtain ⟨word, list, hword, hdirective, hlist⟩ := h.word_eq
  obtain ⟨rest, hhead, hread⟩ := Declaration.decode_eq_ok hdecode
  generalize declaration.directive = directive at hhead hread
  simp only [Declaration.head, hword, hdirective] at hhead
  obtain ⟨hlabel, rfl, rfl⟩ : none = declaration.label ∧ .dword = directive ∧ list = rest := by
    simpa using hhead
  exact ⟨hlabel.symm, hlist.readAll_eq_ok hlabels hread⟩

/-- A row behind a label declares the addresses of its names under that label. -/
theorem decode_labelled {label gap : List Char} (h : TableRow names text)
    (hlabel : IsIdentifier label) (hgap : ∀ c ∈ gap, isSpace c = true) (hne : gap ≠ [])
    (hlabels : ∀ name ∈ names, ∃ value, symbols.labels.get? (String.ofList name) = some value)
    {declaration : Declaration}
    (hdecode : Declaration.decode symbols (label ++ (gap ++ text)) = .ok declaration) :
    declaration.label = some label ∧ ∃ values : List UInt32,
      names.map (fun name => symbols.labels.get? (String.ofList name)) = values.map some ∧
        declaration.bytes = values.flatMap bytesOfWord := by
  obtain ⟨word, list, hword, hdirective, hlist⟩ := h.word_eq
  obtain ⟨rest, hhead, hread⟩ := Declaration.decode_eq_ok hdecode
  generalize declaration.directive = directive at hhead hread
  have hfirst : Declaration.word (label ++ (gap ++ text)) = (label, text) :=
    Declaration.word_eq (fun c hc => not_isSpace_of_continuesIdentifier (hlabel.2 c hc)) hgap hne
      h.not_startsWith_isSpace
  simp only [Declaration.head, hfirst, hword, hdirective] at hhead
  cases hofWord : Directive.ofWord? label with
  | some first =>
    rw [hofWord] at hhead
    obtain ⟨-, rfl, rfl⟩ : none = declaration.label ∧ first = directive ∧ text = rest := by
      simpa using hhead
    exact absurd hread h.readAll_ne_ok
  | none =>
    rw [hofWord] at hhead
    obtain ⟨hname, rfl, rfl⟩ :
        some label = declaration.label ∧ .dword = directive ∧ list = rest := by
      simpa using hhead
    exact ⟨hname.symm, hlist.readAll_eq_ok hlabels hread⟩

end TableRow

end X86Listing
