import X86Listing.Declaration
import X86Listing.Proofs.Instruction.Scanning

/-!
# Declarations, byte by byte

`Parse.declaration` decodes a line of a data section with scans only.  The elements are read in
rounds (`Parse.round`), and nothing but a bound on their number keeps `Parse.elements` from going
on forever.

`follows_elements` says that any bound above the length of the text is as good as any other:
every round that goes on has taken a character.  So the bound is never met, and
`follows_declaration` is the fact about whole lines.  `scan_progress` puts it together with the
facts about operands and instructions.
-/

namespace X86Listing

open Text (hex isSpace utf8Bytes)

namespace Scan

/-- The bytes up to a space, and the spaces behind them. -/
def word : Scan (List Char) := do
  let name ← takeWhile fun byte => !Cursor.isSpaceByte byte
  skipSpaces
  return name

/-- The quote that is next, if there is one. -/
def quote : Scan (Option Char) := do
  if ← nextIs '\x22' then
    return some '\x22'
  else if ← nextIs '\x27' then
    return some '\x27'
  else
    return none

end Scan

namespace Parse

open Scan (Steps)

/-! ## Steps -/

/-- The label and the directive of a line. -/
def head : Parse (Option (List Char) × Directive) := do
  let first ← Scan.word
  match Directive.ofWord? first with
  | some directive => return (none, directive)
  | none =>
    let second ← Scan.word
    match Directive.ofWord? second with
    | some directive => return (some first, directive)
    | none =>
      throw (.invalidData
        s!"unknown directive `{String.ofList second}` for '{String.ofList first}'")

/-- Quoted text and both quotes. -/
def quoted (quote : Char) : Parse (List UInt8) := do
  Scan.bump
  let inside ← Scan.takeWhile fun byte => !(byte == UInt8.ofNat quote.toNat)
  if ← Scan.eat quote then
    return utf8Bytes inside
  else
    throw (.invalidData "unterminated string")

/-- The word `offset`, which only `dd` takes. -/
def offsetWord (directive : Directive) : Scan (Option Unit) :=
  if directive = .dword then Scan.keyword "offset".toList else return none

/-- An element that is one word. -/
def elementValue (directive : Directive) (symbols : Symbols) : Parse UInt32 := do
  if ← Scan.eat '?' then
    return 0
  else
    match ← offsetWord directive with
    | some () =>
      expect (Scan.offset symbols) fun text => .unresolved (String.ofList (Element.trim text))
    | none =>
      match ← Scan.number with
      | none =>
        let text ← Scan.rest
        throw (.invalidData s!"unexpected `{String.ofList text}`")
      | some v =>
        match directive.narrow? v with
        | some v => return v
        | none => throw (.invalidData (hex v.toNat ++ s!" does not fit {directive.bits} bits"))

/-- The bytes of an element that is one word. -/
def encoded (directive : Directive) (symbols : Symbols) : Parse (List UInt8) := do
  let v ← elementValue directive symbols
  return directive.encode v

/-- The bytes of an element. -/
def element (directive : Directive) (symbols : Symbols) : Parse (List UInt8) := do
  if directive = .byte then
    match ← Scan.quote with
    | some quote => quoted quote
    | none => encoded directive symbols
  else
    encoded directive symbols

/-- One round: the separators and an element, or nothing at the end of the line. -/
def round (directive : Directive) (symbols : Symbols) : Parse (Option (List UInt8)) := do
  Scan.skipCommas
  if ← Scan.atEnd then
    return none
  else
    let bytes ← element directive symbols
    return some bytes

/-- The bytes of all elements, in less than `bound` rounds that go on. -/
def elements (directive : Directive) (symbols : Symbols) : (bound : Nat) → Parse (List UInt8)
  | 0 => fun _ => none
  | bound + 1 => do
    match ← round directive symbols with
    | none => return []
    | some bytes =>
      let more ← elements directive symbols bound
      return bytes ++ more

/-- The declaration of a line. -/
def declaration (bound : Nat) (symbols : Symbols) : Parse Declaration := do
  let (label, directive) ← head
  let bytes ← elements directive symbols bound
  if bytes = [] then throw (.invalidData "empty declaration")
  else return ⟨label, directive, bytes⟩

/-! ## Steps and answers -/

variable {line text : List Char} (directive : Directive) (symbols : Symbols)

theorem steps_word : Steps line Scan.word text
    ((Declaration.word text).1, (Declaration.word text).2) :=
  .bind (.takeWhile Bytewise.isSpaceByte.not) (.bind .skipSpaces (.pure _))

theorem follows_head :
    Follows line head text (Declaration.head text)
      fun (label, directive, left) => ((label, directive), left) := by
  unfold Declaration.head
  refine .step steps_word ?_
  dsimp only
  cases Directive.ofWord? (Declaration.word text).1 with
  | some directive => exact .pure rfl
  | none =>
    refine .step steps_word ?_
    cases Directive.ofWord? (Declaration.word (Declaration.word text).2).1 with
    | some directive => exact .pure rfl
    | none => exact .throw _

theorem follows_quoted {quote : Char} (hquote : quote.toNat < 128) {tail : List Char} :
    Follows line (quoted quote) (quote :: tail) (Element.quoted quote tail)
      fun result => result := by
  have hclass : Bytewise (fun byte => !(byte == UInt8.ofNat quote.toNat)) (fun c => c != quote) :=
    (Bytewise.single hquote).not
  refine .step (.bump hquote) (.step (.takeWhile hclass) ?_)
  unfold Element.quoted
  cases hrest : tail.dropWhile fun c => c != quote with
  | nil => exact .step (.eat_of_none hquote rfl) (.throw _)
  | cons c rest =>
    have hc := not_startsWith_dropWhile (fun c => c != quote) tail
    rw [hrest] at hc
    obtain rfl : c = quote := by simpa [startsWith] using hc
    exact .step (.eat_of_some hquote (skipChar?_eq_some.2 rfl)) (.pure rfl)

theorem steps_offsetWord_of_some {left : List Char}
    (h : Element.skipOffset? directive text = some left) :
    Steps line (offsetWord directive) text (some (), left) := by
  unfold Element.skipOffset? at h
  split at h
  · next hdword => exact .ite_pos hdword (Scan.steps_keyword_of_some (by simp) h)
  · cases h

theorem steps_offsetWord_of_none (h : Element.skipOffset? directive text = none) :
    Steps line (offsetWord directive) text (none, text) := by
  unfold Element.skipOffset? at h
  split at h
  · next hdword => exact .ite_pos hdword (Scan.steps_keyword_of_none (by simp) h)
  · next hdword => exact .ite_neg hdword (.pure _)

theorem follows_elementValue :
    Follows line (elementValue directive symbols) text (Element.value directive symbols text)
      fun result => result := by
  unfold Element.value
  cases hmark : skipChar? '?' text with
  | some rest => exact .step (.eat_of_some (by decide) hmark) (.pure rfl)
  | none =>
    refine .step (.eat_of_none (by decide) hmark) ?_
    cases hoffset : Element.skipOffset? directive text with
    | some rest =>
      refine .step (steps_offsetWord_of_some directive hoffset) ?_
      exact follows_expect (Scan.reads_offset symbols) (fun _ h => by simp only [h])
        fun h => by simp only [h]
    | none =>
      refine .step (steps_offsetWord_of_none directive hoffset) ?_
      cases hnumber : number? text with
      | none => exact .step (Scan.reads_number.steps_none hnumber) (.step .rest (.throw _))
      | some found =>
        obtain ⟨v, left⟩ := found
        refine .step (Scan.reads_number.steps_some hnumber) ?_
        dsimp only
        cases directive.narrow? v with
        | none => exact .throw _
        | some w => exact .pure rfl

theorem follows_encoded :
    Follows line (encoded directive symbols) text
      ((Element.value directive symbols text).map fun (v, rest) => (directive.encode v, rest))
      fun result => result :=
  (follows_elementValue directive symbols).map fun _ => .pure rfl

theorem steps_quote_of_isQuote {c : Char} (h : isQuote c = true) {tail : List Char} :
    Steps line Scan.quote (c :: tail) (some c, c :: tail) := by
  simp only [isQuote, Bool.or_eq_true, beq_iff_eq] at h
  rcases h with rfl | rfl
  · exact .bind (.next (Bytewise.single (by decide)) rfl) (.pure _)
  · exact .bind (.next (Bytewise.single (by decide)) rfl)
      (.bind (.next (Bytewise.single (by decide)) rfl) (.pure _))

theorem steps_quote_of_not_isQuote {c : Char} (h : isQuote c = false) {tail : List Char} :
    Steps line Scan.quote (c :: tail) (none, c :: tail) := by
  obtain ⟨hdouble, hsingle⟩ := Bool.or_eq_false_iff.1 h
  exact .bind (.next (Bytewise.single (by decide)) hdouble)
    (.bind (.next (Bytewise.single (by decide)) hsingle) (.pure _))

theorem follows_element {c : Char} {tail : List Char} :
    Follows line (element directive symbols) (c :: tail)
      (Element.read directive symbols (c :: tail)) fun result => result := by
  unfold element
  by_cases hbyte : directive = .byte
  · rw [if_pos hbyte]
    cases hquote : isQuote c with
    | true =>
      have hread : Element.read directive symbols (c :: tail) = Element.quoted c tail :=
        if_pos ⟨hbyte, hquote⟩
      have hascii : c.toNat < 128 := by
        simp only [isQuote, Bool.or_eq_true, beq_iff_eq] at hquote
        rcases hquote with rfl | rfl <;> decide
      rw [hread]
      exact .step (steps_quote_of_isQuote hquote) (follows_quoted hascii)
    | false =>
      rw [Element.read, if_neg (by simp [hquote])]
      exact .step (steps_quote_of_not_isQuote hquote) (follows_encoded directive symbols)
  · rw [if_neg hbyte, Element.read, if_neg (by simp [hbyte])]
    exact follows_encoded directive symbols

/-! ## Rounds -/

theorem follows_round_nil (h : skipCommas text = []) :
    Follows line (round directive symbols) text (.ok (none, [])) fun result => result := by
  have hskip : Steps line Scan.skipCommas text ((), []) := h ▸ .skipCommas
  exact .step hskip (.step .atEnd (.pure rfl))

theorem follows_round_cons {c : Char} {tail : List Char} (h : skipCommas text = c :: tail) :
    Follows line (round directive symbols) text
      ((Element.read directive symbols (c :: tail)).map fun (bytes, left) => (some bytes, left))
      fun result => result := by
  have hskip : Steps line Scan.skipCommas text ((), c :: tail) := h ▸ .skipCommas
  exact .step hskip (.step .atEnd ((follows_element directive symbols).map fun _ => .pure rfl))

/-- A round that goes on has taken a character. -/
theorem length_lt_of_round {c : Char} {tail left : List Char} {bytes : List UInt8}
    (h : skipCommas text = c :: tail)
    (hread : Element.read directive symbols (c :: tail) = .ok (bytes, left)) :
    left.length < text.length := by
  have hsuffix : skipCommas text <:+ text := List.dropWhile_suffix _
  rw [h] at hsuffix
  exact Nat.lt_of_lt_of_le (Element.length_lt_of_read hread) hsuffix.length_le

/-- No bound above the length of the text is met, because every round that goes on has taken a
character. -/
theorem follows_elements {bound : Nat} (h : text.length < bound) :
    Follows line (elements directive symbols bound) text
      (Element.readAll directive symbols text) fun bytes => (bytes, []) := by
  induction bound generalizing text with
  | zero => exact absurd h (Nat.not_lt_zero _)
  | succ bound ih =>
    rw [Element.readAll_eq]
    cases hskip : skipCommas text with
    | nil => exact (follows_round_nil directive symbols hskip).bind_ok (.pure rfl)
    | cons c tail =>
      have hround := @follows_round_cons line text directive symbols c tail hskip
      dsimp only
      cases hread : Element.read directive symbols (c :: tail) with
      | error e =>
        rw [hread] at hround
        exact hround.bind_error
      | ok found =>
        obtain ⟨bytes, left⟩ := found
        rw [hread] at hround
        have hlength := length_lt_of_round directive symbols hskip hread
        exact hround.bind_ok
          ((ih (Nat.lt_of_lt_of_le hlength (Nat.le_of_lt_succ h))).map fun _ => .pure rfl)

/-- Every declaration is decoded byte by byte as it is decoded character by character. -/
theorem follows_declaration {bound : Nat} (h : line.length < bound) :
    Follows line (declaration bound symbols) line (Declaration.decode symbols line)
      fun result => (result, []) := by
  have hfollows := @follows_head line line
  refine hfollows.bind fun (label, directive, rest) hhead => ?_
  rw [hhead] at hfollows
  have hrest : rest.length < bound :=
    Nat.lt_of_le_of_lt (hfollows.suffix List.suffix_rfl).length_le h
  refine (follows_elements directive symbols hrest).bind fun bytes _ => ?_
  split
  · exact .throw _
  · exact .pure rfl

/-- A round ends on a boundary of the line, and if it goes on the position has grown. -/
theorem exists_round {cursor : Cursor} (h : cursor.OnBoundary line) :
    ∃ outcome behind, (round directive symbols).run cursor = some (outcome, behind) ∧
      behind.OnBoundary line ∧
      ∀ bytes, outcome = .ok (some bytes) → cursor.position < behind.position := by
  obtain ⟨text, htext, rfl⟩ := Cursor.onBoundary_iff.1 h
  cases hskip : skipCommas text with
  | nil =>
    obtain ⟨behind, hbehind, hrun⟩ :=
      (follows_round_nil directive symbols hskip).exists_boundary htext
    exact ⟨_, behind, hrun, hbehind, by rintro bytes ⟨⟩⟩
  | cons c tail =>
    have hround := @follows_round_cons line text directive symbols c tail hskip
    cases hread : Element.read directive symbols (c :: tail) with
    | error e =>
      rw [hread] at hround
      obtain ⟨behind, hbehind, hrun⟩ := hround.exists_boundary htext
      exact ⟨_, behind, hrun, hbehind, by rintro bytes ⟨⟩⟩
    | ok found =>
      obtain ⟨bytes, left⟩ := found
      rw [hread] at hround
      cases hround with
      | ok hsteps =>
        obtain ⟨hleft, hrun⟩ := hsteps htext
        exact ⟨_, _, hrun, Cursor.onBoundary_iff.2 ⟨left, hleft.trans htext, rfl⟩, fun _ _ =>
          Cursor.position_place_lt htext hleft (length_lt_of_round directive symbols hskip hread)⟩

end Parse

/-! ## Lines -/

theorem Cursor.start_eq_place (line : List Char) : start line = place line line := by
  simp [start, place]

theorem length_le_length_utf8Bytes (text : List Char) : text.length ≤ (utf8Bytes text).length := by
  induction text with
  | nil => rfl
  | cons c text ih =>
    have hpos := List.length_pos_iff.2 (Text.utf8EncodeChar_ne_nil c)
    simp only [List.length_cons, Text.utf8Bytes_cons, List.length_append]
    omega

/-- A line can be read byte by byte.

Every operand reader leaves the cursor where it is or moves it on to a later boundary, not in
front of a space.  The decoders of instructions and of declarations stay on boundaries all the
way, and they find what the decoders of texts find.  A round of the elements of a declaration
takes a byte or is the last one, so any bound above the number of bytes will do. -/
theorem scan_progress (symbols : Symbols) (line : List Char) :
    (Scan.Progresses line Scan.mnemonic mnemonic? ∧
      Scan.Progresses line Scan.identifier identifier? ∧
      Scan.Progresses line Scan.segment segment? ∧
      Scan.Progresses line Scan.register register? ∧
      Scan.Progresses line Scan.number number? ∧
      Scan.Progresses line (Scan.localValue symbols) symbols.local? ∧
      Scan.Progresses line (Scan.offset symbols) symbols.offset? ∧
      Scan.Progresses line (Scan.value symbols) symbols.value?) ∧
    (∃ behind, behind.OnBoundary line ∧
      (Parse.decode symbols).run (.start line) = some (decode symbols line, behind)) ∧
    (∀ bound, (utf8Bytes line).length < bound → ∃ behind, behind.OnBoundary line ∧
      (Parse.declaration bound symbols).run (.start line) =
        some (Declaration.decode symbols line, behind)) ∧
    ∀ (directive : Directive) (cursor : Cursor), cursor.OnBoundary line →
      ∃ outcome behind, (Parse.round directive symbols).run cursor = some (outcome, behind) ∧
        behind.OnBoundary line ∧
        ∀ bytes, outcome = .ok (some bytes) → cursor.position < behind.position := by
  rw [Cursor.start_eq_place]
  refine ⟨⟨Scan.reads_mnemonic.progresses_of_stops mnemonic?_advances mnemonic?_stops line,
      Scan.reads_identifier.progresses_of_stops identifier?_advances identifier?_stops line,
      Scan.reads_segment.progresses segment?_advances not_startsWith_isSpace_of_segment? line,
      Scan.reads_register.progresses_of_stops register?_advances register?_stops line,
      Scan.reads_number.progresses_of_stops number?_advances number?_stops line,
      (Scan.reads_localValue symbols).progresses_of_stops symbols.local?_advances
        symbols.local?_stops line,
      (Scan.reads_offset symbols).progresses_of_stops symbols.offset?_advances
        symbols.offset?_stops line,
      (Scan.reads_value symbols).progresses_of_stops symbols.value?_advances
        symbols.value?_stops line⟩,
    ?_, fun bound hbound => ?_, fun directive cursor => Parse.exists_round directive symbols⟩
  · obtain ⟨behind, hbehind, hrun⟩ := (Parse.follows_decode symbols).exists_boundary List.suffix_rfl
    refine ⟨behind, hbehind, hrun.trans ?_⟩
    cases decode symbols line <;> rfl
  · have hlength := Nat.lt_of_le_of_lt (length_le_length_utf8Bytes line) hbound
    obtain ⟨behind, hbehind, hrun⟩ :=
      (Parse.follows_declaration symbols hlength).exists_boundary List.suffix_rfl
    refine ⟨behind, hbehind, hrun.trans ?_⟩
    cases Declaration.decode symbols line <;> rfl

/-- Between characters of more than one byte a number is read, and a declaration of quoted text
is decoded. -/
theorem scan_progress_umlauts :
    (Cursor.between "tür db 'ü', ".toList "1h ä".toList).OnBoundary
        "tür db 'ü', 1h ä".toList ∧
      (∃ behind, Scan.number (.between "tür db 'ü', ".toList "1h ä".toList) =
          some (some 1, behind) ∧
        14 < behind.position ∧ behind.OnBoundary "tür db 'ü', 1h ä".toList) ∧
      ∃ behind, behind.OnBoundary "tür db 'ü', 1h".toList ∧
        (Parse.declaration 20 ⟨.empty, .empty, .new 16⟩).run (.start "tür db 'ü', 1h".toList) =
          some (.ok ⟨some "tür".toList, .byte, [0xc3, 0xbc, 1]⟩, behind) := by
  have hboundary : (Cursor.between "tür db 'ü', ".toList "1h ä".toList).OnBoundary
      "tür db 'ü', 1h ä".toList := ⟨_, _, by decide, rfl⟩
  refine ⟨hboundary, ?_, ?_⟩
  · obtain ⟨⟨-, -, -, -, hnumber, -⟩, -⟩ :=
      scan_progress ⟨.empty, .empty, .new 16⟩ "tür db 'ü', 1h ä".toList
    have hread : (Cursor.between "tür db 'ü', ".toList "1h ä".toList).read number? =
        some (1, .between "tür db 'ü', 1h ".toList "ä".toList) := by decide +kernel
    have hposition : (Cursor.between "tür db 'ü', ".toList "1h ä".toList).position = 14 := by
      decide +kernel
    rcases hnumber _ hboundary with ⟨-, hnone⟩ | ⟨value, behind, hscan, hsome, hlt, -, hbehind, -⟩
    · rw [hread] at hnone
      cases hnone
    · obtain ⟨rfl, -⟩ := Prod.mk.inj (Option.some.inj (hread.symm.trans hsome))
      exact ⟨behind, hscan, hposition ▸ hlt, hbehind⟩
  · obtain ⟨-, -, hdeclaration, -⟩ :=
      scan_progress ⟨.empty, .empty, .new 16⟩ "tür db 'ü', 1h".toList
    have hdecode : Declaration.decode ⟨.empty, .empty, .new 16⟩ "tür db 'ü', 1h".toList =
        .ok ⟨some "tür".toList, .byte, [0xc3, 0xbc, 1]⟩ := by decide +kernel
    rw [← hdecode]
    exact hdeclaration 20 (by decide +kernel)

end X86Listing
