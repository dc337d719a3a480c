import X86Listing.Proofs.Source.Normalize

/-!
# What normal form is

A line is made of characters that stand outside of quotes and of quotations, which reach from a
quote to the next one of the same kind or to the end of the line.  `lineParts` reads a line in
this way, whatever stands in it, and normal form is told by the parts alone.

* `lineContent` are the parts before the comment, and `lineWords` are what stands between blanks
  there.
* `IsNormalForm` is the property of a text that blanks outside of quotes are single spaces
  between two other parts, with no comment and no carriage return.
* `squeeze` is what normalizing does to the parts (`lineParts_normalizeFrom`).  Its answers are
  in normal form (`spaced_squeeze`), and it leaves what is in normal form
  (`squeeze_of_spaced`).
* `normalize_projection` puts this together, with the words of the line and with what can be
  appended to it.
-/

namespace X86Listing

open Text (isBlank)

/-! ## The parts of a line -/

/-- A part of a line. -/
inductive LinePart where
  /-- A character outside of quotes. -/
  | char (c : Char)
  /-- A quotation: a quote, some text without it, and the quote again if the quotation is
  closed. -/
  | quotation (quote : Char) (text : List Char) (closed : Bool)
deriving DecidableEq, Repr

namespace LinePart

/-- The characters of a part. -/
def chars : LinePart → List Char
  | char c => [c]
  | quotation quote text true => quote :: (text ++ [quote])
  | quotation quote text false => quote :: text

/-- Is the part a blank outside of quotes? -/
def isBlank : LinePart → Bool
  | char c => Text.isBlank c
  | quotation .. => false

/-- Is the part a quotation that is not closed? -/
def isOpen : LinePart → Bool
  | char _ => false
  | quotation _ _ closed => !closed

end LinePart

/-- The parts of the rest of a line.  `inside` is the quotation that the rest stands in: its quote
and what was read behind it. -/
def linePartsFrom (inside : Option (Char × List Char)) : List Char → List LinePart
  | [] =>
    match inside with
    | none => []
    | some (quote, text) => [.quotation quote text false]
  | c :: rest =>
    match inside with
    | none =>
      if isQuote c then linePartsFrom (some (c, [])) rest else .char c :: linePartsFrom none rest
    | some (quote, text) =>
      if c = quote then .quotation quote text true :: linePartsFrom none rest
      else linePartsFrom (some (quote, text ++ [c])) rest

/-- The parts of a line. -/
def lineParts (line : List Char) : List LinePart :=
  linePartsFrom none line

/-- The parts of a line before the comment. -/
def lineContent (text : List Char) : List LinePart :=
  (lineParts text).takeWhile (· ≠ .char ';')

/-- The words among parts: what stands between blanks.  A carriage return is no part of a word,
but it does not end one either. -/
def lineWords (parts : List LinePart) : List (List LinePart) :=
  ((parts.filter (· ≠ .char '\r')).splitOnP LinePart.isBlank).filter (· ≠ [])

theorem lineParts_char {c : Char} (h : isQuote c = false) (rest : List Char) :
    lineParts (c :: rest) = .char c :: lineParts rest := by
  simp [lineParts, linePartsFrom, h]

/-- A quotation is closed by the next quote of its kind. -/
theorem lineParts_closed {quote : Char} {text : List Char} (hquote : isQuote quote = true)
    (h : quote ∉ text) (rest : List Char) :
    lineParts (quote :: (text ++ quote :: rest)) =
      .quotation quote text true :: lineParts rest := by
  have hinside : ∀ before, linePartsFrom (some (quote, before)) (text ++ quote :: rest) =
      .quotation quote (before ++ text) true :: lineParts rest := by
    induction text with
    | nil => simp [linePartsFrom, lineParts]
    | cons c text ih =>
      obtain ⟨hc, htext⟩ : quote ≠ c ∧ quote ∉ text := by simpa using h
      intro before
      simp [linePartsFrom, Ne.symm hc, ih htext]
  simpa [lineParts, linePartsFrom, hquote] using hinside []

/-- A quotation that is not closed reaches to the end of the line. -/
theorem lineParts_open {quote : Char} {text : List Char} (hquote : isQuote quote = true)
    (h : quote ∉ text) : lineParts (quote :: text) = [.quotation quote text false] := by
  have hinside : ∀ before, linePartsFrom (some (quote, before)) text =
      [.quotation quote (before ++ text) false] := by
    induction text with
    | nil => simp [linePartsFrom]
    | cons c text ih =>
      obtain ⟨hc, htext⟩ : quote ≠ c ∧ quote ∉ text := by simpa using h
      intro before
      simp [linePartsFrom, Ne.symm hc, ih htext]
  simpa [lineParts, linePartsFrom, hquote] using hinside []

/-- Induction on the parts of a line. -/
@[elab_as_elim]
theorem lineParts_induction {motive : List Char → Prop} (nil : motive [])
    (char : ∀ c rest, isQuote c = false → motive rest → motive (c :: rest))
    (closed : ∀ quote text rest, isQuote quote = true → quote ∉ text → motive rest →
      motive (quote :: (text ++ quote :: rest)))
    (opened : ∀ quote text, isQuote quote = true → quote ∉ text → motive (quote :: text))
    (line : List Char) : motive line :=
  match line with
  | [] => nil
  | c :: rest => by
    by_cases hquote : isQuote c = true
    · by_cases hmem : c ∈ rest
      · obtain ⟨text, behind, hrest, htext⟩ := List.eq_append_cons_of_mem hmem
        have hlength : behind.length < rest.length := by
          rw [hrest, List.length_append, List.length_cons]
          omega
        rw [hrest]
        exact closed c text behind hquote htext
          (lineParts_induction nil char closed opened behind)
      · exact opened c rest hquote hmem
    · exact char c rest (by simpa using hquote)
        (lineParts_induction nil char closed opened rest)
termination_by line.length
decreasing_by
  · exact Nat.lt_succ_of_lt hlength
  · exact Nat.lt_add_one _

/-- Nothing of a line is lost in its parts. -/
theorem flatMap_chars_lineParts (line : List Char) :
    (lineParts line).flatMap LinePart.chars = line := by
  induction line using lineParts_induction with
  | nil => rfl
  | char c rest hquote ih =>
    rw [lineParts_char hquote, List.flatMap_cons, ih]
    rfl
  | closed quote text rest hquote hmem ih =>
    rw [lineParts_closed hquote hmem, List.flatMap_cons, ih]
    simp [LinePart.chars]
  | opened quote text hquote hmem =>
    rw [lineParts_open hquote hmem]
    simp [LinePart.chars]

/-! ## Normalizing part by part -/

/-- `normalizeFrom` on the parts of a line. -/
def squeeze (started pending : Bool) : List LinePart → List LinePart
  | [] => []
  | part :: rest =>
    if part = .char ';' then
      []
    else if part = .char '\r' then
      squeeze started pending rest
    else if part.isBlank then
      squeeze started true rest
    else
      (if pending && started then [.char ' '] else []) ++ part :: squeeze true false rest

theorem squeeze_of_not_isBlank {part : LinePart} (hcomment : part ≠ .char ';')
    (hblank : part.isBlank = false) (started pending : Bool) (rest : List LinePart) :
    squeeze started pending (part :: rest) =
      (if pending && started then [.char ' '] else []) ++ part :: squeeze true false rest := by
  have hreturn : part ≠ .char '\r' := by
    rintro rfl
    cases hblank
  rw [squeeze, if_neg hcomment, if_neg hreturn, hblank, if_neg (by simp)]

/-- A character that is no blank is kept, with a space before it if blanks were met. -/
theorem normalizeFrom_of_not_isBlank {c : Char} (hcomment : c ≠ ';')
    (hblank : isBlank c = false) (started pending : Bool) (rest : List Char) :
    normalizeFrom none started pending (c :: rest) =
      (if pending && started then [' '] else []) ++
        c :: normalizeFrom (if isQuote c then some c else none) true false rest := by
  have hreturn : c ≠ '\r' := by
    rintro rfl
    cases hblank
  simp only [normalizeFrom, if_neg hcomment, if_neg hreturn, hblank, Bool.false_eq_true, if_false]
  cases pending && started <;> rfl

theorem normalizeFrom_open {quote : Char} {text : List Char} (h : quote ∉ text)
    (started pending : Bool) :
    normalizeFrom (some quote) started pending text = text := by
  induction text generalizing started pending with
  | nil => rfl
  | cons c text ih =>
    obtain ⟨hc, htext⟩ : quote ≠ c ∧ quote ∉ text := by simpa using h
    rw [normalizeFrom, if_neg (Ne.symm hc), ih htext]

theorem not_isBlank_of_isQuote {quote : Char} (h : isQuote quote = true) :
    quote ≠ ';' ∧ isBlank quote = false := by
  simp only [isQuote, Bool.or_eq_true, beq_iff_eq] at h
  rcases h with rfl | rfl <;> decide

theorem lineParts_space (condition : Bool) (rest : List Char) :
    lineParts ((if condition then [' '] else []) ++ rest) =
      (if condition then [.char ' '] else []) ++ lineParts rest := by
  cases condition with
  | false => rfl
  | true => exact lineParts_char rfl rest

/-- The scanner does to the parts of a line what `squeeze` does. -/
theorem lineParts_normalizeFrom (line : List Char) (started pending : Bool) :
    lineParts (normalizeFrom none started pending line) =
      squeeze started pending (lineParts line) := by
  induction line using lineParts_induction generalizing started pending with
  | nil => rfl
  | char c rest hquote ih =>
    rw [lineParts_char hquote]
    by_cases hcomment : c = ';'
    · subst hcomment
      rfl
    by_cases hreturn : c = '\r'
    · subst hreturn
      exact ih started pending
    by_cases hblank : isBlank c = true
    · have hscan : normalizeFrom none started pending (c :: rest) =
          normalizeFrom none started true rest := by
        simp only [normalizeFrom, if_neg hcomment, if_neg hreturn, hblank, if_true]
      have hparts : squeeze started pending (.char c :: lineParts rest) =
          squeeze started true (lineParts rest) := by
        simp [squeeze, hcomment, hreturn, LinePart.isBlank, hblank]
      rw [hscan, hparts, ih]
    · rw [Bool.not_eq_true] at hblank
      have hpart : LinePart.char c ≠ .char ';' := by simpa using hcomment
      have hvisible : (LinePart.char c).isBlank = false := hblank
      rw [normalizeFrom_of_not_isBlank hcomment hblank, lineParts_space, hquote,
        if_neg Bool.false_ne_true, lineParts_char hquote, ih,
        squeeze_of_not_isBlank hpart hvisible]
  | closed quote text rest hquote hmem ih =>
    have hscan := normalizesTo_quoted hquote hmem started pending rest
    simp only [List.cons_append, List.append_assoc, List.nil_append] at hscan
    rw [hscan, lineParts_space, lineParts_closed hquote hmem, lineParts_closed hquote hmem, ih,
      squeeze_of_not_isBlank (by simp) rfl]
  | opened quote text hquote hmem =>
    obtain ⟨hcomment, hblank⟩ := not_isBlank_of_isQuote hquote
    have hscan : normalizeFrom none started pending (quote :: text) =
        (if pending && started then [' '] else []) ++ quote :: text := by
      rw [normalizeFrom_of_not_isBlank hcomment hblank, hquote, if_pos rfl,
        normalizeFrom_open hmem]
    rw [hscan, lineParts_space, lineParts_open hquote hmem, squeeze_of_not_isBlank (by simp) rfl,
      squeeze]

/-! ## Normal form -/

/-- Blanks among parts are single spaces, each between two other parts, and there is no comment.
`started` says that something stands before the first part. -/
def Spaced (started : Bool) (parts : List LinePart) : Prop :=
  ∀ before c after, parts = before ++ .char c :: after →
    c ≠ ';' ∧ c ≠ '\r' ∧ (isBlank c = true →
      c = ' ' ∧
      (before = [] ∧ started = true ∨
        ∃ front part, before = front ++ [part] ∧ part.isBlank = false) ∧
      ∃ part back, after = part :: back ∧ part.isBlank = false)

/-- Outside of quotes a text holds no comment and no carriage return, and no blanks but single
spaces, each between two characters that are no blanks.  A quotation counts as such a character,
because it starts and ends with its quote. -/
def IsNormalForm (text : List Char) : Prop :=
  Spaced false (lineParts text)

theorem spaced_nil (started : Bool) : Spaced started [] := by
  intro before c after h
  simp at h

/-- A part that is no blank can stand before parts that wait for one. -/
theorem Spaced.cons {part : LinePart} {parts : List LinePart} (h : Spaced true parts)
    (hcomment : part ≠ .char ';') (hblank : part.isBlank = false) (started : Bool) :
    Spaced started (part :: parts) := by
  intro before c after hsplit
  cases before with
  | nil =>
    obtain ⟨rfl, rfl⟩ : part = .char c ∧ parts = after := by simpa using hsplit
    have hc : isBlank c = false := hblank
    refine ⟨by simpa using hcomment, ?_, fun hblank' => ?_⟩
    · rintro rfl
      cases hc
    · rw [hc] at hblank'
      cases hblank'
  | cons first before =>
    obtain ⟨rfl, rfl⟩ : part = first ∧ parts = before ++ .char c :: after := by
      simpa using hsplit
    obtain ⟨hsemicolon, hreturn, hspace⟩ := h before c after rfl
    refine ⟨hsemicolon, hreturn, fun hc => ?_⟩
    obtain ⟨hc, hbefore, hafter⟩ := hspace hc
    refine ⟨hc, Or.inr ?_, hafter⟩
    rcases hbefore with ⟨rfl, -⟩ | ⟨front, last, rfl, hlast⟩
    · exact ⟨[], part, rfl, hblank⟩
    · exact ⟨part :: front, last, rfl, hlast⟩

/-- A space can stand between something and a part that is no blank. -/
theorem Spaced.space {part : LinePart} {parts : List LinePart}
    (h : Spaced true (part :: parts)) (hblank : part.isBlank = false) :
    Spaced true (.char ' ' :: part :: parts) := by
  intro before c after hsplit
  cases before with
  | nil =>
    obtain ⟨rfl, rfl⟩ : ' ' = c ∧ part :: parts = after := by simpa using hsplit
    exact ⟨by decide, by decide, fun _ => ⟨rfl, Or.inl ⟨rfl, rfl⟩, part, parts, rfl, hblank⟩⟩
  | cons first before =>
    obtain ⟨rfl, hrest⟩ : .char ' ' = first ∧ part :: parts = before ++ .char c :: after := by
      simpa using hsplit
    obtain ⟨hsemicolon, hreturn, hspace⟩ := h before c after hrest
    refine ⟨hsemicolon, hreturn, fun hc => ?_⟩
    obtain ⟨hc', hbefore, hafter⟩ := hspace hc
    refine ⟨hc', Or.inr ?_, hafter⟩
    rcases hbefore with ⟨rfl, -⟩ | ⟨front, last, rfl, hlast⟩
    · -- The first part behind the space is no blank.
      obtain ⟨rfl, -⟩ : part = .char c ∧ parts = after := by simpa using hrest
      rw [LinePart.isBlank, hc] at hblank
      cases hblank
    · exact ⟨.char ' ' :: front, last, rfl, hlast⟩

theorem spaced_squeeze (started pending : Bool) (parts : List LinePart) :
    Spaced started (squeeze started pending parts) := by
  induction parts generalizing started pending with
  | nil => exact spaced_nil started
  | cons part rest ih =>
    by_cases hcomment : part = .char ';'
    · rw [squeeze, if_pos hcomment]
      exact spaced_nil started
    by_cases hblank : part.isBlank = true
    · rw [squeeze, if_neg hcomment, hblank, if_pos rfl]
      split
      · exact ih started pending
      · exact ih started true
    · rw [Bool.not_eq_true] at hblank
      rw [squeeze_of_not_isBlank hcomment hblank]
      have hrest := (ih true false).cons hcomment hblank
      cases hpending : pending && started with
      | false => exact hrest started
      | true =>
        obtain rfl : started = true := (Bool.and_eq_true_iff.1 hpending).2
        exact (hrest true).space hblank

theorem Spaced.tail {started : Bool} {part : LinePart} {parts : List LinePart}
    (h : Spaced started (part :: parts)) : Spaced true parts := by
  intro before c after hsplit
  obtain ⟨hsemicolon, hreturn, hspace⟩ := h (part :: before) c after (by rw [hsplit]; rfl)
  refine ⟨hsemicolon, hreturn, fun hc => ?_⟩
  obtain ⟨hc, hbefore, hafter⟩ := hspace hc
  refine ⟨hc, ?_, hafter⟩
  rcases hbefore with ⟨hnil, -⟩ | ⟨front, last, hfront, hlast⟩
  · cases hnil
  · cases front with
    | nil =>
      obtain ⟨-, rfl⟩ : part = last ∧ before = [] := by simpa using hfront
      exact Or.inl ⟨rfl, rfl⟩
    | cons first front =>
      obtain ⟨-, rfl⟩ : part = first ∧ before = front ++ [last] := by simpa using hfront
      exact Or.inr ⟨front, last, rfl, hlast⟩

theorem Spaced.ne_comment {started : Bool} {part : LinePart} {parts : List LinePart}
    (h : Spaced started (part :: parts)) : part ≠ .char ';' := by
  rintro rfl
  exact (h [] ';' parts rfl).1 rfl

/-- Parts in normal form stay as they are. -/
theorem squeeze_of_spaced {started : Bool} {parts : List LinePart} (h : Spaced started parts) :
    squeeze started false parts = parts := by
  induction parts generalizing started with
  | nil => rfl
  | cons part rest ih =>
    have hrest := ih h.tail
    cases hblank : part.isBlank with
    | false =>
      rw [squeeze_of_not_isBlank h.ne_comment hblank, hrest]
      rfl
    | true =>
      obtain ⟨c, rfl⟩ : ∃ c, part = .char c := by
        cases part with
        | char c => exact ⟨c, rfl⟩
        | quotation quote text closed => cases hblank
      obtain ⟨-, -, hspace⟩ := h [] c rest rfl
      obtain ⟨rfl, hbefore, next, back, rfl, hnext⟩ := hspace hblank
      obtain rfl : started = true := by simpa using hbefore
      -- The space is written together with the part behind it.
      rw [squeeze_of_not_isBlank h.tail.ne_comment hnext] at hrest
      have hscan : squeeze true false (.char ' ' :: next :: back) =
          squeeze true true (next :: back) := rfl
      rw [hscan, squeeze_of_not_isBlank h.tail.ne_comment hnext]
      exact congrArg (LinePart.char ' ' :: ·) hrest

/-! ## Words -/

/-- Normalizing keeps the parts that are no blanks, up to the comment. -/
theorem filter_squeeze (started pending : Bool) (parts : List LinePart) :
    (squeeze started pending parts).filter (· ≠ .char ' ') =
      (parts.takeWhile (· ≠ .char ';')).filter (fun part => !part.isBlank) := by
  induction parts generalizing started pending with
  | nil => rfl
  | cons part rest ih =>
    by_cases hcomment : part = .char ';'
    · subst hcomment
      rfl
    rw [List.takeWhile_cons_of_pos (by simpa using hcomment)]
    by_cases hblank : part.isBlank = true
    · rw [squeeze, if_neg hcomment, hblank, if_pos rfl, List.filter_cons_of_neg (by simp [hblank])]
      split
      · exact ih started pending
      · exact ih started true
    · rw [Bool.not_eq_true] at hblank
      have hspace : part ≠ .char ' ' := by
        rintro rfl
        cases hblank
      rw [squeeze_of_not_isBlank hcomment hblank, List.filter_cons_of_pos (by simp [hblank]),
        List.filter_append, List.filter_cons_of_pos (by simpa using hspace), ih]
      cases pending && started <;> rfl

theorem intercalate_cons_eq (word : List LinePart) (words : List (List LinePart)) :
    [.char ' '].intercalate (word :: words) = word ++ words.flatMap (.char ' ' :: ·) := by
  induction words generalizing word with
  | nil => simp
  | cons next words ih => rw [List.intercalate_cons_cons, ih]; simp

/-- Normalizing puts one space between two words.  A word that goes on needs none before it. -/
theorem squeeze_eq_words {parts : List LinePart} {first : List LinePart}
    {others : List (List LinePart)}
    (h : ((parts.takeWhile (· ≠ .char ';')).filter (· ≠ .char '\r')).splitOnP
      LinePart.isBlank = first :: others) :
    squeeze true false parts =
        first ++ (others.filter (· ≠ [])).flatMap (.char ' ' :: ·) ∧
      squeeze true true parts =
        ((first :: others).filter (· ≠ [])).flatMap (.char ' ' :: ·) ∧
      ∀ pending, squeeze false pending parts =
        [.char ' '].intercalate ((first :: others).filter (· ≠ [])) := by
  induction parts generalizing first others with
  | nil =>
    rw [List.takeWhile_nil, List.filter_nil, List.splitOnP_nil] at h
    cases h
    exact ⟨rfl, rfl, fun _ => rfl⟩
  | cons part rest ih =>
    by_cases hcomment : part = .char ';'
    · rw [List.takeWhile_cons_of_neg (by simp [hcomment]), List.filter_nil,
        List.splitOnP_nil] at h
      cases h
      simp [squeeze, hcomment]
    rw [List.takeWhile_cons_of_pos (by simpa using hcomment)] at h
    by_cases hreturn : part = .char '\r'
    · rw [List.filter_cons_of_neg (by simp [hreturn])] at h
      subst hreturn
      exact ih h
    rw [List.filter_cons_of_pos (by simpa using hreturn),
      List.splitOnP_cons_eq_if_modifyHead] at h
    obtain ⟨next, more, hrest⟩ := List.exists_cons_of_ne_nil (List.splitOnP_ne_nil
      LinePart.isBlank ((rest.takeWhile (· ≠ .char ';')).filter (· ≠ .char '\r')))
    obtain ⟨hword, hblanks, hline⟩ := ih hrest
    rw [hrest] at h
    cases hblank : part.isBlank with
    | true =>
      rw [hblank, if_pos rfl] at h
      cases h
      have hscan : ∀ started pending,
          squeeze started pending (part :: rest) = squeeze started true rest := by
        intro started pending
        rw [squeeze, if_neg hcomment, if_neg hreturn, hblank, if_pos rfl]
      simp only [hscan, hblanks, hline]
      simp
    | false =>
      rw [hblank, if_neg Bool.false_ne_true, List.modifyHead_cons] at h
      cases h
      simp only [squeeze_of_not_isBlank hcomment hblank, hword]
      simp [intercalate_cons_eq]

theorem lineParts_normalize (raw : List Char) :
    lineParts (normalize raw) = [.char ' '].intercalate (lineWords (lineContent raw)) := by
  obtain ⟨first, others, hwords⟩ := List.exists_cons_of_ne_nil (List.splitOnP_ne_nil
    LinePart.isBlank ((lineContent raw).filter (· ≠ .char '\r')))
  rw [normalize, lineParts_normalizeFrom, lineWords, hwords]
  exact (squeeze_eq_words hwords).2.2 false

/-! ## What can be appended -/

theorem normalizeFrom_blanks {blanks comment : List Char}
    (hblanks : ∀ c ∈ blanks, isBlank c = true) (hcomment : IsComment comment)
    (started pending : Bool) :
    normalizeFrom none started pending (blanks ++ comment) = [] := by
  induction blanks generalizing pending with
  | nil => exact hcomment.normalizeFrom_eq started pending
  | cons c blanks ih =>
    have hrest := ih fun d hd => hblanks d (List.mem_cons_of_mem c hd)
    have hblank : isBlank c = true := hblanks c List.mem_cons_self
    have hsemicolon : c ≠ ';' := by
      rintro rfl
      cases hblank
    rw [List.cons_append, normalizeFrom, if_neg hsemicolon, hblank, if_pos rfl]
    split
    · exact hrest pending
    · exact hrest true

/-- What is dropped by itself is dropped behind a line without an open quotation, too. -/
theorem normalizeFrom_append {line tail : List Char}
    (hclosed : ∀ part ∈ lineContent line, part.isOpen = false)
    (htail : ∀ started pending, normalizeFrom none started pending tail = [])
    (started pending : Bool) :
    normalizeFrom none started pending (line ++ tail) =
      normalizeFrom none started pending line := by
  induction line using lineParts_induction generalizing started pending with
  | nil => exact htail started pending
  | char c rest hquote ih =>
    by_cases hcomment : c = ';'
    · subst hcomment
      rfl
    have hrest : ∀ part ∈ lineContent rest, part.isOpen = false := by
      intro part hpart
      refine hclosed part ?_
      rw [lineContent, lineParts_char hquote, List.takeWhile_cons_of_pos (by simpa using hcomment)]
      exact List.mem_cons_of_mem _ hpart
    simp only [List.cons_append, normalizeFrom, hquote, Bool.false_eq_true, if_false, ih hrest]
  | closed quote text rest hquote hmem ih =>
    have hrest : ∀ part ∈ lineContent rest, part.isOpen = false := by
      intro part hpart
      refine hclosed part ?_
      rw [lineContent, lineParts_closed hquote hmem, List.takeWhile_cons_of_pos (by simp)]
      exact List.mem_cons_of_mem _ hpart
    have hscan := normalizesTo_quoted hquote hmem started pending
    simp only [List.cons_append, List.append_assoc, List.nil_append] at hscan ⊢
    rw [hscan, hscan, ih hrest]
  | opened quote text hquote hmem =>
    have hopen : (LinePart.quotation quote text false).isOpen = false := by
      refine hclosed _ ?_
      rw [lineContent, lineParts_open hquote hmem, List.takeWhile_cons_of_pos (by simp)]
      exact List.mem_cons_self
    cases hopen

/-! ## Normalizing -/

theorem normalize_of_isNormalForm {text : List Char} (h : IsNormalForm text) :
    normalize text = text := by
  rw [← flatMap_chars_lineParts (normalize text), normalize, lineParts_normalizeFrom,
    squeeze_of_spaced h, flatMap_chars_lineParts]

theorem isNormalForm_normalize (raw : List Char) : IsNormalForm (normalize raw) := by
  rw [IsNormalForm, normalize, lineParts_normalizeFrom]
  exact spaced_squeeze false false _

/-- Normalizing answers a normal form for every line and leaves exactly the lines that are normal
forms already.  Apart from the spaces the parts of the answer are the parts of the line before
its comment that are no blanks, quotations included, in order.  The spaces stand between the
words of the line.  If the line leaves no quotation open, then blanks, carriage returns and a
comment can be appended to it. -/
theorem normalize_projection (raw : List Char) :
    IsNormalForm (normalize raw) ∧
    normalize (normalize raw) = normalize raw ∧
    (normalize raw = raw ↔ IsNormalForm raw) ∧
    (lineParts (normalize raw)).filter (· ≠ .char ' ') =
      (lineContent raw).filter (fun part => !part.isBlank) ∧
    lineParts (normalize raw) = [.char ' '].intercalate (lineWords (lineContent raw)) ∧
    ((∀ part ∈ lineContent raw, part.isOpen = false) →
      ∀ blanks comment, (∀ c ∈ blanks, isBlank c = true) → IsComment comment →
        normalize (raw ++ (blanks ++ comment)) = normalize raw) := by
  have hform := isNormalForm_normalize raw
  refine ⟨hform, normalize_of_isNormalForm hform, ⟨fun heq => ?_, normalize_of_isNormalForm⟩, ?_,
    lineParts_normalize raw, fun hclosed blanks comment hblanks hcomment => ?_⟩
  · rwa [heq] at hform
  · rw [normalize, lineParts_normalizeFrom, filter_squeeze]
    rfl
  · exact normalizeFrom_append hclosed (normalizeFrom_blanks hblanks hcomment) false false

/-- A line with both kinds of quotes, a carriage return inside of a word, and a quote in its
comment. -/
def quotedLine : List Char :=
  "\tdb\t'a;  \x22' ,\x22it's\x22 1\r2  ; don't".toList

theorem normalize_projection_quotedLine :
    normalize quotedLine = "db 'a;  \x22' ,\x22it's\x22 12".toList ∧
    (∀ part ∈ lineContent quotedLine, part.isOpen = false) ∧
    normalize (quotedLine ++ (['\u2003', ' ', '\r'] ++ ";\x22".toList)) =
      normalize quotedLine := by
  have hclosed : ∀ part ∈ lineContent quotedLine, part.isOpen = false := by decide
  obtain ⟨-, -, -, -, -, happend⟩ := normalize_projection quotedLine
  refine ⟨by decide, hclosed, happend hclosed _ _ (List.all_eq_true.1 rfl) ?_⟩
  rintro c tail heq
  cases heq
  rfl

end X86Listing
