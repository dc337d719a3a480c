import X86Listing.Proofs.Operand.Boundary
import X86Listing.Proofs.Operand.Scan

/-!
# Operands, byte by byte

The readers of operands as scans.  Each of them looks at the bytes of the line only, and works
on a copy of the cursor, so it leaves the cursor where it was if it finds nothing.

`Scan.Reads` says that a scan does what a reader does in front of every end of a line, and there
is one fact for each of the eight readers.
-/

namespace X86Listing

open Text (isSpace isHexDigit findIgnoreCase?)

/-- What a reader finds in a text, and where it stops.  It stops at once if it finds nothing. -/
def Reader.outcome {α : Type} (reader : Reader α) (text : List Char) : Option α × List Char :=
  match reader text with
  | some (a, left) => (some a, left)
  | none => (none, text)

theorem Reader.outcome_of_some {α : Type} {reader : Reader α} {text left : List Char} {a : α}
    (h : reader text = some (a, left)) : reader.outcome text = (some a, left) := by
  rw [outcome, h]

theorem Reader.outcome_of_none {α : Type} {reader : Reader α} {text : List Char}
    (h : reader text = none) : reader.outcome text = (none, text) := by
  rw [outcome, h]

/-- Behind the token of the reader no space comes next. -/
theorem Reader.Stops.not_startsWith_isSpace {α : Type} {reader : Reader α} (h : reader.Stops)
    {text left : List Char} {a : α} (hread : reader text = some (a, left)) :
    startsWith isSpace left = false := by
  obtain ⟨after, -, -, rfl⟩ := h hread
  exact not_startsWith_dropWhile isSpace after

theorem not_startsWith_isSpace_of_segment? {text name left : List Char}
    (h : segment? text = some (name, left)) : startsWith isSpace left = false := by
  simp only [segment?] at h
  split at h
  · cases h
  split at h
  · cases h
  · cases h
    exact not_startsWith_dropWhile isSpace _

/-! ## Classes of characters -/

theorem ascii_of_continuesIdentifier {c : Char} (h : continuesIdentifier c = true) :
    c.toNat < 128 := by
  simp only [continuesIdentifier, Char.isAlphanum, Char.isAlpha, Char.isLower, Char.isUpper,
    Char.isDigit, UInt32.le_iff_toNat_le, Bool.or_eq_true, Bool.and_eq_true, decide_eq_true_eq,
    beq_iff_eq, ge_iff_le, Char.toNat_val] at h
  rcases h with ((⟨-, h⟩ | ⟨-, h⟩) | ⟨-, h⟩) | rfl
  · exact Nat.lt_of_le_of_lt h (by decide)
  · exact Nat.lt_of_le_of_lt h (by decide)
  · exact Nat.lt_of_le_of_lt h (by decide)
  · decide

namespace Bytewise

theorem continuesIdentifier :
    Bytewise (asciiClass continuesIdentifier) continuesIdentifier :=
  ascii fun _ => ascii_of_continuesIdentifier

theorem startsIdentifier : Bytewise (asciiClass startsIdentifier) startsIdentifier :=
  ascii fun _ hc => ascii_of_continuesIdentifier (continuesIdentifier_of_startsIdentifier hc)

theorem isAlpha : Bytewise (asciiClass Char.isAlpha) Char.isAlpha :=
  ascii fun _ hc => ascii_of_continuesIdentifier (continuesIdentifier_of_isAlpha hc)

theorem isHexDigit : Bytewise (asciiClass isHexDigit) isHexDigit :=
  ascii fun _ hc => ascii_of_continuesIdentifier (continuesIdentifier_of_isHexDigit hc)

end Bytewise

namespace Scan

/-! ## Scans -/

/-- A word and the spaces that have to follow it. -/
def keyword (word : List Char) : Scan (Option Unit) := attempt do
  if ← eatWord word then
    if ← next Cursor.isSpaceByte then
      skipSpaces
      return some ()
    else
      return none
  else
    return none

/-- Letters up to a space or the end of the line. -/
def mnemonic : Scan (Option (List Char)) := attempt do
  let name ← takeWhile (asciiClass Char.isAlpha)
  if name = [] ∨ (← next fun byte => !Cursor.isSpaceByte byte) then
    return none
  else
    skipSpaces
    return some name

/-- A letter or `_`, then letters, digits and `_`. -/
def identifier : Scan (Option (List Char)) := attempt do
  if ← next (asciiClass startsIdentifier) then
    let name ← takeWhile (asciiClass continuesIdentifier)
    skipSpaces
    return some name
  else
    return none

/-- Letters with a colon behind them. -/
def segment : Scan (Option (List Char)) := attempt do
  let name ← takeWhile (asciiClass Char.isAlpha)
  if name = [] then
    return none
  else if ← eat ':' then
    skipSpaces
    return some name
  else
    return none

/-- A register that a listing can name. -/
def register : Scan (Option Reg) := attempt do
  let name ← takeWhile (asciiClass Char.isAlpha)
  if name = [] ∨ (← next (asciiClass continuesIdentifier)) then
    return none
  else
    ifFound (findIgnoreCase? Reg.spellings name) fun reg => do
      skipSpaces
      return some reg

/-- A hexadecimal mark, if there is one. -/
def mark : Scan Bool := do
  if ← eat 'h' then return true else eat 'H'

/-- A numeral that no identifier follows at once. -/
def number : Scan (Option UInt32) := attempt do
  let negative ← eat '-'
  let digits ← takeWhile (asciiClass isHexDigit)
  if digits = [] then
    return none
  else
    let marked ← mark
    if ← next (asciiClass startsIdentifier) then
      return none
    else
      ifFound (numeral? marked digits) fun value => do
        skipSpaces
        return some (if negative then -value else value)

/-- The name of a local. -/
def localValue (symbols : Symbols) : Scan (Option UInt32) := attempt do
  ifFound (← identifier) fun name =>
    ifFound (symbols.locals.get? (String.ofList name)) fun v =>
      return some v

/-- The name of a label, with an optional segment and the optional word `short` before it. -/
def offset (symbols : Symbols) : Scan (Option UInt32) := attempt do
  let segment ← segment
  let _ ← keyword "short".toList
  ifFound (← identifier) fun name =>
    ifFound (symbols.address? segment (String.ofList name)) fun v =>
      return some v

/-- What the first scan finds, or else what the second one finds. -/
def orElse {α : Type} (first second : Scan (Option α)) : Scan (Option α) := do
  match ← first with
  | some a => return some a
  | none => second

/-- A number, a local or a label. -/
def value (symbols : Symbols) : Scan (Option UInt32) :=
  orElse number (orElse (localValue symbols) (offset symbols))

/-! ## What they read -/

/-- In front of every end of a line the scan finds what the reader finds in it. -/
def Reads {α : Type} (scan : Scan (Option α)) (reader : Reader α) : Prop :=
  ∀ line text, Steps line scan text (reader.outcome text)

variable {line text left : List Char}

theorem Reads.steps_some {α : Type} {scan : Scan (Option α)} {reader : Reader α} {a : α}
    (h : Reads scan reader) (hread : reader text = some (a, left)) :
    Steps line scan text (some a, left) := by
  rw [← Reader.outcome_of_some hread]
  exact h line text

theorem Reads.steps_none {α : Type} {scan : Scan (Option α)} {reader : Reader α}
    (h : Reads scan reader) (hread : reader text = none) : Steps line scan text (none, text) := by
  rw [← Reader.outcome_of_none hread]
  exact h line text

theorem steps_keyword_of_some {word : List Char} (hword : ∀ c ∈ word, c.toNat < 128)
    (h : keyword? word text = some left) : Steps line (keyword word) text (some (), left) := by
  unfold keyword? at h
  split at h
  · cases h
  · next rest hskip =>
    split at h
    · next hspace =>
      obtain rfl := Option.some.inj h
      exact .attempt_some (.bind (.eatWord_of_some hword hskip)
        (.bind (.next .isSpaceByte hspace) (.bind .skipSpaces (.pure _))))
    · cases h

theorem steps_keyword_of_none {word : List Char} (hword : ∀ c ∈ word, c.toNat < 128)
    (h : keyword? word text = none) : Steps line (keyword word) text (none, text) := by
  unfold keyword? at h
  split at h
  · next hskip => exact .attempt_none (.bind (.eatWord_of_none hword hskip) (.pure _))
  · next rest hskip =>
    split at h
    · cases h
    · next hspace =>
      exact .attempt_none (.bind (.eatWord_of_some hword hskip)
        (.bind (.next .isSpaceByte (by simpa using hspace)) (.pure _)))

theorem startsWith_not_isSpace {text : List Char} :
    startsWith (fun c => !isSpace c) text = true ↔ ¬(text = [] ∨ startsWith isSpace text = true) := by
  cases text <;> simp [startsWith]

theorem reads_mnemonic : Reads mnemonic mnemonic? := by
  intro line text
  have hname : Steps line (takeWhile (asciiClass Char.isAlpha)) text _ := .takeWhile .isAlpha
  by_cases hstop : text.takeWhile Char.isAlpha = [] ∨
      startsWith (fun c => !isSpace c) (text.dropWhile Char.isAlpha) = true
  · have hnone : mnemonic? text = none := by
      simp only [mnemonic?]
      rcases hstop with hnil | hstart
      · rw [if_pos hnil]
      · rw [if_neg (startsWith_not_isSpace.1 hstart), ite_self]
    rw [Reader.outcome_of_none hnone]
    exact .attempt_none (hname.bind (.bind (.next Bytewise.isSpaceByte.not rfl)
      (.ite_pos hstop (.pure _))))
  · have hsome : mnemonic? text = some (text.takeWhile Char.isAlpha,
        X86Listing.skipSpaces (text.dropWhile Char.isAlpha)) := by
      obtain ⟨hne, hstart⟩ := not_or.1 hstop
      rw [startsWith_not_isSpace, not_not] at hstart
      simp only [mnemonic?, if_neg hne, if_pos hstart]
    rw [Reader.outcome_of_some hsome]
    exact .attempt_some (hname.bind (.bind (.next Bytewise.isSpaceByte.not rfl)
      (.ite_neg hstop (.bind .skipSpaces (.pure _)))))

theorem reads_identifier : Reads identifier identifier? := by
  intro line text
  cases hstart : startsWith startsIdentifier text with
  | true =>
    simp only [Reader.outcome, identifier?, hstart, if_true]
    exact .attempt_some (.bind (.next .startsIdentifier hstart)
      (.bind (.takeWhile .continuesIdentifier) (.bind .skipSpaces (.pure _))))
  | false =>
    simp only [Reader.outcome, identifier?, hstart, Bool.false_eq_true, if_false]
    exact .attempt_none (.bind (.next .startsIdentifier hstart) (.pure _))

theorem reads_segment : Reads segment segment? := by
  intro line text
  have hname : Steps line (takeWhile (asciiClass Char.isAlpha)) text _ := .takeWhile .isAlpha
  by_cases hnil : text.takeWhile Char.isAlpha = []
  · simp only [Reader.outcome, segment?, if_pos hnil]
    exact .attempt_none (hname.bind (.ite_pos hnil (.pure _)))
  · cases hcolon : skipChar? ':' (text.dropWhile Char.isAlpha) with
    | none =>
      simp only [Reader.outcome, segment?, if_neg hnil, hcolon]
      exact .attempt_none (hname.bind (.ite_neg hnil
        (.bind (.eat_of_none (by decide) hcolon) (.pure _))))
    | some rest =>
      simp only [Reader.outcome, segment?, if_neg hnil, hcolon]
      exact .attempt_some (hname.bind (.ite_neg hnil
        (.bind (.eat_of_some (by decide) hcolon) (.bind .skipSpaces (.pure _)))))

theorem reads_register : Reads register register? := by
  intro line text
  have hname : Steps line (takeWhile (asciiClass Char.isAlpha)) text _ := .takeWhile .isAlpha
  by_cases hstop : text.takeWhile Char.isAlpha = [] ∨
      startsWith continuesIdentifier (text.dropWhile Char.isAlpha) = true
  · simp only [Reader.outcome, register?, if_pos hstop]
    exact .attempt_none (hname.bind (.bind (.next .continuesIdentifier rfl)
      (.ite_pos hstop (.pure _))))
  · cases hfind : findIgnoreCase? Reg.spellings (text.takeWhile Char.isAlpha) with
    | none =>
      simp only [Reader.outcome, register?, if_neg hstop, hfind]
      exact .attempt_none (hname.bind (.bind (.next .continuesIdentifier rfl)
        (.ite_neg hstop (.ifFound_none hfind))))
    | some r =>
      simp only [Reader.outcome, register?, if_neg hstop, hfind]
      exact .attempt_some (hname.bind (.bind (.next .continuesIdentifier rfl)
        (.ite_neg hstop (.ifFound_some hfind (.bind .skipSpaces (.pure _))))))

/-! ### Values -/

theorem steps_sign : Steps line (eat '-') text ((skipSign text).1, (skipSign text).2) := by
  unfold skipSign
  cases h : skipChar? '-' text with
  | none => exact .eat_of_none (by decide) h
  | some rest => exact .eat_of_some (by decide) h

theorem steps_mark : Steps line mark text ((skipMark text).1, (skipMark text).2) := by
  unfold skipMark
  split
  · next rest => exact .bind (.eat_of_some (by decide) (skipChar?_eq_some.2 rfl)) (.pure _)
  · next rest =>
    exact .bind (.eat_of_none (by decide) rfl)
      (.eat_of_some (by decide) (skipChar?_eq_some.2 rfl))
  · next hsmall hcapital =>
    have hnone : ∀ c, (∀ rest, text ≠ c :: rest) → skipChar? c text = none := by
      intro c hc
      rw [Option.eq_none_iff_forall_ne_some]
      exact fun rest h => hc rest (skipChar?_eq_some.1 h)
    exact .bind (.eat_of_none (by decide) (hnone 'h' hsmall))
      (.eat_of_none (by decide) (hnone 'H' hcapital))

theorem reads_number : Reads number number? := by
  intro line text
  have hdigits : Steps line (takeWhile (asciiClass isHexDigit)) (skipSign text).2 _ :=
    .takeWhile .isHexDigit
  by_cases hnil : (skipSign text).2.takeWhile isHexDigit = []
  · have hnone : number? text = none := by simp [number?, numeral?, hnil]
    rw [Reader.outcome_of_none hnone]
    exact .attempt_none (steps_sign.bind (hdigits.bind (.ite_pos hnil (.pure _))))
  cases hstart : startsWith startsIdentifier
      (skipMark ((skipSign text).2.dropWhile isHexDigit)).2 with
  | true =>
    simp only [Reader.outcome, number?, hstart, if_true]
    exact .attempt_none (steps_sign.bind (hdigits.bind (.ite_neg hnil (steps_mark.bind
      (.bind (.next .startsIdentifier hstart) (.pure _))))))
  | false =>
    cases hvalue : numeral? (skipMark ((skipSign text).2.dropWhile isHexDigit)).1
        ((skipSign text).2.takeWhile isHexDigit) with
    | none =>
      simp only [Reader.outcome, number?, hstart, hvalue, Bool.false_eq_true, if_false]
      exact .attempt_none (steps_sign.bind (hdigits.bind (.ite_neg hnil (steps_mark.bind
        (.bind (.next .startsIdentifier hstart) (.ite_neg Bool.false_ne_true
          (.ifFound_none hvalue)))))))
    | some v =>
      simp only [Reader.outcome, number?, hstart, hvalue, Bool.false_eq_true, if_false]
      exact .attempt_some (steps_sign.bind (hdigits.bind (.ite_neg hnil (steps_mark.bind
        (.bind (.next .startsIdentifier hstart) (.ite_neg Bool.false_ne_true
          (.ifFound_some hvalue (.bind .skipSpaces (.pure _)))))))))

theorem reads_localValue (symbols : Symbols) : Reads (localValue symbols) symbols.local? := by
  intro line text
  cases hread : identifier? text with
  | none =>
    simp only [Reader.outcome, Symbols.local?, hread]
    exact .attempt_none ((reads_identifier.steps_none hread).bind (.ifFound_none rfl))
  | some found =>
    obtain ⟨name, left⟩ := found
    cases hget : symbols.locals.get? (String.ofList name) with
    | none =>
      simp only [Reader.outcome, Symbols.local?, hread, hget]
      exact .attempt_none ((reads_identifier.steps_some hread).bind
        (.ifFound_some rfl (.ifFound_none hget)))
    | some v =>
      simp only [Reader.outcome, Symbols.local?, hread, hget]
      exact .attempt_some ((reads_identifier.steps_some hread).bind
        (.ifFound_some rfl (.ifFound_some hget (.pure _))))

theorem steps_segment :
    Steps line segment text ((Symbols.skipSegment text).1, (Symbols.skipSegment text).2) := by
  unfold Symbols.skipSegment
  cases h : segment? text with
  | none => exact reads_segment.steps_none h
  | some found => exact reads_segment.steps_some h

/-- The word `short` is passed over if it is there. -/
theorem steps_short : ∃ found, Steps line (keyword "short".toList) text
    (found, Symbols.skipShort text) := by
  have hword : ∀ c ∈ "short".toList, c.toNat < 128 := by simp
  unfold Symbols.skipShort
  cases h : keyword? "short".toList text with
  | none => exact ⟨none, steps_keyword_of_none hword h⟩
  | some left => exact ⟨some (), steps_keyword_of_some hword h⟩

theorem reads_offset (symbols : Symbols) : Reads (offset symbols) symbols.offset? := by
  intro line text
  obtain ⟨found, hshort⟩ := @steps_short line (Symbols.skipSegment text).2
  cases hread : identifier? (Symbols.skipShort (Symbols.skipSegment text).2) with
  | none =>
    simp only [Reader.outcome, Symbols.offset?, hread]
    exact .attempt_none (steps_segment.bind (hshort.bind
      ((reads_identifier.steps_none hread).bind (.ifFound_none rfl))))
  | some found =>
    obtain ⟨name, left⟩ := found
    have hname : Steps line identifier _ (some name, left) := reads_identifier.steps_some hread
    cases haddress : symbols.address? (Symbols.skipSegment text).1 (String.ofList name) with
    | none =>
      simp only [Reader.outcome, Symbols.offset?, hread, haddress]
      exact .attempt_none (steps_segment.bind (hshort.bind (hname.bind
        (.ifFound_some rfl (.ifFound_none haddress)))))
    | some v =>
      simp only [Reader.outcome, Symbols.offset?, hread, haddress]
      exact .attempt_some (steps_segment.bind (hshort.bind (hname.bind
        (.ifFound_some rfl (.ifFound_some haddress (.pure _))))))

theorem Reads.orElse {α : Type} {first second : Scan (Option α)} {reader reader' : Reader α}
    (h : Reads first reader) (k : Reads second reader') :
    Reads (orElse first second) fun text => (reader text).or (reader' text) := by
  intro line text
  cases hread : reader text with
  | some found =>
    simp only [Reader.outcome, hread, Option.some_or]
    exact (h.steps_some hread).bind (.pure _)
  | none =>
    have hsecond := k line text
    simp only [Reader.outcome, hread, Option.none_or] at hsecond ⊢
    exact (h.steps_none hread).bind hsecond

theorem reads_value (symbols : Symbols) : Reads (value symbols) symbols.value? :=
  reads_number.orElse ((reads_localValue symbols).orElse (reads_offset symbols))

/-! ## Progress -/

/-- On every boundary of the line the scan does what the reader does.  It finds nothing and the
cursor stays, or the cursor moves on to another boundary, which is not in front of a space. -/
def Progresses {α : Type} (line : List Char) (scan : Scan (Option α)) (reader : Reader α) : Prop :=
  ∀ cursor : Cursor, cursor.OnBoundary line →
    (scan cursor = some (none, cursor) ∧ cursor.read reader = none) ∨
    ∃ a behind, scan cursor = some (some a, behind) ∧ cursor.read reader = some (a, behind) ∧
      cursor.position < behind.position ∧ behind.position ≤ (Text.utf8Bytes line).length ∧
      behind.OnBoundary line ∧
      ∀ byte, behind.peekAt 0 = some byte → Cursor.isSpaceByte byte = false

theorem Reads.progresses {α : Type} {scan : Scan (Option α)} {reader : Reader α}
    (h : Reads scan reader) (hadvances : reader.Advances)
    (hspace : ∀ {text a left}, reader text = some (a, left) → startsWith isSpace left = false)
    (line : List Char) : Progresses line scan reader := by
  intro cursor hcursor
  obtain ⟨text, htext, rfl⟩ := Cursor.onBoundary_iff.1 hcursor
  obtain ⟨-, hscan⟩ := h line text htext
  cases hread : reader text with
  | none =>
    rw [Reader.outcome_of_none hread] at hscan
    exact Or.inl ⟨hscan, by simp [Cursor.read, Cursor.place, hread]⟩
  | some found =>
    obtain ⟨a, left⟩ := found
    rw [Reader.outcome_of_some hread] at hscan
    obtain ⟨hleft, hlength⟩ := hadvances hread
    have hboundary : (Cursor.place line left).OnBoundary line :=
      Cursor.onBoundary_iff.2 ⟨left, hleft.trans htext, rfl⟩
    refine Or.inr ⟨a, Cursor.place line left, hscan, Cursor.read_place htext hread hleft,
      Cursor.position_place_lt htext hleft hlength, hboundary.position_le, hboundary,
      fun byte hbyte => ?_⟩
    have hpeek := @Cursor.any_peekAt_place line left _ _ Bytewise.isSpaceByte
    rwa [hbyte, hspace hread] at hpeek

theorem Reads.progresses_of_stops {α : Type} {scan : Scan (Option α)} {reader : Reader α}
    (h : Reads scan reader) (hadvances : reader.Advances) (hstops : reader.Stops)
    (line : List Char) : Progresses line scan reader :=
  h.progresses hadvances hstops.not_startsWith_isSpace line

end Scan

end X86Listing
