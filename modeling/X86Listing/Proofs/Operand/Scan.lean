import X86Listing.Proofs.Operand.Position
import X86Listing.Proofs.Operand.Run
import X86Listing.Proofs.Text.Order

/-!
# Scanning a line byte by byte

The readers of tokens take characters from a text.  A `Scan` moves a cursor over the bytes of a
line instead, and looks at one byte at a time.  It has no answer as soon as a move ends inside
of a character (`Scan.move`), so a scan with an answer has cut the line between characters only.

* `Cursor.place line rest` is the cursor of a line in front of the end `rest` of it.
* `Bytewise` holds of a class of characters that can be tested on the bytes.  Classes of ASCII
  characters are so, and their complements.
* `Scan.Steps` says what a scan answers in front of an end of a line, and where it stops.  There
  is one fact for each move, and `Steps.bind` puts them together.
-/

namespace X86Listing

open Text (isSpace lowerByte SameLetters utf8Bytes)

/-! ## Classes of bytes -/

/-- Every byte of a character is in the class of bytes exactly if the character is in the class
of characters. -/
def Bytewise (isByte : UInt8 → Bool) (isMember : Char → Bool) : Prop :=
  ∀ c, ∀ byte ∈ String.utf8EncodeChar c, isByte byte = isMember c

/-- The bytes that are ASCII characters of a class. -/
def asciiClass (isMember : Char → Bool) (byte : UInt8) : Bool :=
  byte < 128 && isMember (Char.ofNat byte.toNat)

namespace Bytewise

variable {isByte isByte' : UInt8 → Bool} {isMember isMember' : Char → Bool}

theorem not (h : Bytewise isByte isMember) :
    Bytewise (fun byte => !isByte byte) (fun c => !isMember c) :=
  fun c byte hbyte => congrArg (!·) (h c byte hbyte)

theorem or (h : Bytewise isByte isMember) (k : Bytewise isByte' isMember') :
    Bytewise (fun byte => isByte byte || isByte' byte) (fun c => isMember c || isMember' c) :=
  fun c byte hbyte => congrArg₂ (· || ·) (h c byte hbyte) (k c byte hbyte)

theorem toNat_ofNat {c : Char} (h : c.toNat < 128) : (UInt8.ofNat c.toNat).toNat = c.toNat :=
  UInt8.toNat_ofNat_of_lt' (Nat.lt_trans h (by decide))

/-- A class of ASCII characters. -/
theorem ascii (h : ∀ c, isMember c = true → c.toNat < 128) :
    Bytewise (asciiClass isMember) isMember := by
  intro c byte hbyte
  by_cases hc : c.toNat < 128
  · rw [Text.utf8EncodeChar_of_lt hc, List.mem_singleton] at hbyte
    have hlt : byte < 128 := by
      rw [hbyte, UInt8.lt_iff_toNat_lt, toNat_ofNat hc]
      exact hc
    have hcode : Char.ofNat byte.toNat = c := by
      rw [hbyte, toNat_ofNat hc, Char.ofNat_toNat]
    simp [asciiClass, hlt, hcode]
  · have hle := Text.le_of_mem_utf8EncodeChar (Nat.le_of_not_lt hc) hbyte
    have hmember : isMember c = false := by
      rw [Bool.eq_false_iff]
      exact fun hmember => hc (h c hmember)
    simp [asciiClass, UInt8.not_lt.2 hle, hmember]

/-- One ASCII character. -/
theorem single {d : Char} (hd : d.toNat < 128) :
    Bytewise (· == UInt8.ofNat d.toNat) (· == d) := by
  intro c byte hbyte
  rw [Bool.eq_iff_iff, beq_iff_eq, beq_iff_eq]
  by_cases hc : c.toNat < 128
  · rw [Text.utf8EncodeChar_of_lt hc, List.mem_singleton] at hbyte
    rw [hbyte, ← UInt8.toNat_inj, toNat_ofNat hc, toNat_ofNat hd, Char.toNat_inj]
  · have hle := Text.le_of_mem_utf8EncodeChar (Nat.le_of_not_lt hc) hbyte
    rw [UInt8.le_iff_toNat_le] at hle
    constructor
    · rintro rfl
      rw [toNat_ofNat hd] at hle
      exact absurd hd (Nat.not_lt.2 hle)
    · rintro rfl
      exact absurd hd hc

theorem isSpaceByte : Bytewise Cursor.isSpaceByte isSpace :=
  ((((single (d := ' ') (by decide)).or (single (d := '\t') (by decide))).or
    (single (d := '\n') (by decide))).or (single (d := '\x0c') (by decide))).or
    (single (d := '\r') (by decide))

end Bytewise

/-! ## Places -/

namespace Cursor

variable {line rest left : List Char} {isByte : UInt8 → Bool} {isMember : Char → Bool}

/-- The cursor of a line in front of the end `rest` of it. -/
def place (line rest : List Char) : Cursor :=
  ⟨(utf8Bytes line).length - (utf8Bytes rest).length, [], rest⟩

theorem place_append (front rest : List Char) : place (front ++ rest) rest = between front rest := by
  simp [place, between]

theorem onBoundary_iff {cursor : Cursor} :
    cursor.OnBoundary line ↔ ∃ rest, rest <:+ line ∧ cursor = place line rest := by
  constructor
  · rintro ⟨front, rest, rfl, rfl⟩
    exact ⟨rest, List.suffix_append front rest, (place_append front rest).symm⟩
  · rintro ⟨rest, ⟨front, rfl⟩, rfl⟩
    exact ⟨front, rest, rfl, place_append front rest⟩

@[simp]
theorem bytes_place : (place line rest).bytes = utf8Bytes rest := rfl

theorem length_utf8Bytes_le (h : rest <:+ line) :
    (utf8Bytes rest).length ≤ (utf8Bytes line).length := by
  obtain ⟨front, rfl⟩ := h
  simp

/-- Behind a character the position has grown by the bytes of the character. -/
theorem position_place_cons {c : Char} (h : c :: rest <:+ line) :
    (place line rest).position =
      (place line (c :: rest)).position + (String.utf8EncodeChar c).length := by
  have hle := length_utf8Bytes_le h
  rw [Text.utf8Bytes_cons, List.length_append] at hle
  simp only [place, Text.utf8Bytes_cons, List.length_append]
  omega

/-- The position grows from an end of the line to a shorter one. -/
theorem position_place_lt (hrest : rest <:+ line) (hleft : left <:+ rest)
    (hlength : left.length < rest.length) :
    (place line rest).position < (place line left).position := by
  obtain ⟨taken, rfl⟩ := hleft
  cases taken with
  | nil => exact absurd hlength (Nat.lt_irrefl _)
  | cons c taken =>
    have hle := length_utf8Bytes_le hrest
    have hpos := List.length_pos_iff.2 (Text.utf8EncodeChar_ne_nil c)
    simp only [place, List.cons_append, Text.utf8Bytes_cons, Text.utf8Bytes_append,
      List.length_append] at hle ⊢
    omega

theorem read_place {α : Type} {reader : Reader α} {a : α} (hrest : rest <:+ line)
    (h : reader rest = some (a, left)) (hleft : left <:+ rest) :
    (place line rest).read reader = some (a, place line left) := by
  obtain ⟨taken, rfl⟩ := hleft
  obtain ⟨front, rfl⟩ := hrest
  rw [place_append, read_between h, ← List.append_assoc, place_append]

theorem suffix_of_cons {c : Char} (h : c :: rest <:+ line) : rest <:+ line :=
  (List.suffix_cons c rest).trans h

theorem bump_place {c : Char} (hc : c.toNat < 128) (h : c :: rest <:+ line) :
    (place line (c :: rest)).bump = place line rest := by
  have hposition := position_place_cons h
  rw [Text.utf8EncodeChar_of_lt hc] at hposition
  simp only [place, bump, Text.utf8EncodeChar_of_lt hc] at hposition ⊢
  simp [hposition]

/-- The next byte is the first one of the next character. -/
theorem any_peekAt_place (h : Bytewise isByte isMember) :
    ((place line rest).peekAt 0).any isByte = startsWith isMember rest := by
  cases rest with
  | nil => rfl
  | cons c rest =>
    obtain ⟨byte, bytes, hbytes⟩ := List.exists_cons_of_ne_nil (Text.utf8EncodeChar_ne_nil c)
    have hbyte : isByte byte = isMember c := h c byte (by simp [hbytes])
    simp [peekAt, startsWith, hbytes, hbyte]

/-! ### Runs of bytes -/

/-- The bytes of a character that are left are passed together. -/
theorem skipWhile_split {bytes : List UInt8} (h : ∀ byte ∈ bytes, isByte byte = true)
    (bound position : Nat) :
    skipWhile isByte (bytes.length + bound) ⟨position, bytes, rest⟩ =
      skipWhile isByte bound ⟨position + bytes.length, [], rest⟩ := by
  induction bytes generalizing position with
  | nil => simp
  | cons byte bytes ih =>
    have hbyte : isByte byte = true := h byte List.mem_cons_self
    have htail := ih (fun b hb => h b (List.mem_cons_of_mem byte hb)) (position + 1)
    rw [List.length_cons, Nat.add_right_comm, skipWhile]
    simp only [peekAt, Cursor.bytes, List.cons_append, List.getElem?_cons_zero, hbyte, bump, htail,
      if_true]
    rw [Nat.add_right_comm, Nat.add_assoc]

/-- A run of bytes of a class is a run of characters of the class. -/
theorem skipWhile_place (h : Bytewise isByte isMember) (hrest : rest <:+ line) :
    skipWhile isByte (utf8Bytes rest).length (place line rest) =
      place line (rest.dropWhile isMember) := by
  induction rest with
  | nil => rfl
  | cons c rest ih =>
    obtain ⟨byte, bytes, hbytes⟩ := List.exists_cons_of_ne_nil (Text.utf8EncodeChar_ne_nil c)
    have hposition := position_place_cons hrest
    have hclass : ∀ b ∈ byte :: bytes, isByte b = isMember c :=
      fun b hb => h c b (by rwa [hbytes])
    have hlength : (utf8Bytes (c :: rest)).length = bytes.length + (utf8Bytes rest).length + 1 := by
      rw [Text.utf8Bytes_cons, hbytes, List.length_append, List.length_cons, Nat.add_right_comm]
    have hpeek : (place line (c :: rest)).peekAt 0 = some byte := by
      simp [peekAt, hbytes]
    rw [hlength, skipWhile, hpeek]
    simp only [hclass byte List.mem_cons_self, List.dropWhile_cons]
    split
    · next hmember =>
      have hbump : (place line (c :: rest)).bump =
          ⟨(place line (c :: rest)).position + 1, bytes, rest⟩ := by
        simp [place, bump, hbytes]
      have hbytes' : ∀ b ∈ bytes, isByte b = true :=
        fun b hb => (hclass b (List.mem_cons_of_mem byte hb)).trans hmember
      rw [hbump, skipWhile_split hbytes', ← ih (suffix_of_cons hrest)]
      congr 1
      rw [hbytes, List.length_cons] at hposition
      simp only [place] at hposition ⊢
      rw [hposition, Nat.add_assoc, Nat.add_comm 1]
    · rfl

theorem take_length_takeWhile (text : List Char) :
    text.take (text.length - (text.dropWhile isMember).length) = text.takeWhile isMember := by
  have hsplit := List.takeWhile_append_dropWhile (p := isMember) (l := text)
  have hlength := congrArg List.length hsplit
  rw [List.length_append] at hlength
  rw [← hlength, Nat.add_sub_cancel]
  exact List.prefix_iff_eq_take.1 (List.takeWhile_prefix isMember) |>.symm

theorem takeWhile_place (h : Bytewise isByte isMember) (hrest : rest <:+ line) :
    (place line rest).takeWhile isByte =
      (rest.takeWhile isMember, place line (rest.dropWhile isMember)) := by
  simp only [takeWhile, bytes_place, skipWhile_place h hrest]
  simp [place, take_length_takeWhile]

end Cursor

/-! ## Words -/

/-- An ASCII word is found in the bytes where it is found in the text. -/
theorem take_utf8Bytes_eq_iff {word text : List Char} (hword : ∀ c ∈ word, c.toNat < 128) :
    (utf8Bytes text).take word.length = utf8Bytes word ↔ text.take word.length = word := by
  induction word generalizing text with
  | nil => simp
  | cons c word ih =>
    have hc : c.toNat < 128 := hword c List.mem_cons_self
    have htail : ∀ d ∈ word, d.toNat < 128 := fun d hd => hword d (List.mem_cons_of_mem c hd)
    cases text with
    | nil => simp [Text.utf8EncodeChar_of_lt hc]
    | cons d text =>
      obtain ⟨byte, bytes, hbytes⟩ := List.exists_cons_of_ne_nil (Text.utf8EncodeChar_ne_nil d)
      have hbyte : byte = UInt8.ofNat c.toNat ↔ d = c := by
        simpa [hbytes] using Bytewise.single hc d byte
      by_cases hd : d = c
      · subst hd
        simp [Text.utf8EncodeChar_of_lt hc, ih htail]
      · simp [Text.utf8EncodeChar_of_lt hc, hbytes, hbyte, hd]

theorem toNat_toLower_lt_iff {c : Char} : c.toLower.toNat < 128 ↔ c.toNat < 128 := by
  have hupper := Text.isUpper_iff c
  rw [Text.toNat_toLower]
  split
  · next h =>
    have := hupper.1 h
    omega
  · exact Iff.rfl

theorem sameLetters_take_iff {word text : List Char} (hword : ∀ c ∈ word, c.toNat < 128) :
    ((utf8Bytes text).take word.length).map lowerByte = (utf8Bytes word).map lowerByte ↔
      SameLetters (text.take word.length) word := by
  have hlower : ∀ c ∈ Text.lower word, c.toNat < 128 := by
    intro c hc
    obtain ⟨d, hd, rfl⟩ := List.mem_map.1 hc
    exact toNat_toLower_lt_iff.2 (hword d hd)
  rw [List.map_take, ← Text.utf8Bytes_lower, ← Text.utf8Bytes_lower, ← Text.length_lower word,
    take_utf8Bytes_eq_iff hlower]
  simp [SameLetters, Text.lower, List.map_take]

/-- A text in the letters of an ASCII word is in ASCII. -/
theorem ascii_of_sameLetters {word text : List Char} (hword : ∀ c ∈ word, c.toNat < 128)
    (h : SameLetters text word) : ∀ c ∈ text, c.toNat < 128 := by
  intro c hc
  have hmem : c.toLower ∈ Text.lower word := by
    have hlower : Text.lower text = Text.lower word := h
    rw [← hlower]
    exact List.mem_map_of_mem hc
  obtain ⟨d, hd, hsame⟩ := List.mem_map.1 hmem
  rw [← toNat_toLower_lt_iff, ← hsame, toNat_toLower_lt_iff]
  exact hword d hd

theorem Cursor.iterate_bump_place {line word rest : List Char} (hword : ∀ c ∈ word, c.toNat < 128)
    (h : word ++ rest <:+ line) :
    Cursor.bump^[word.length] (place line (word ++ rest)) = place line rest := by
  induction word with
  | nil => rfl
  | cons c word ih =>
    rw [List.cons_append] at h ⊢
    rw [List.length_cons, Function.iterate_succ_apply, bump_place (hword c List.mem_cons_self) h]
    exact ih (fun d hd => hword d (List.mem_cons_of_mem c hd)) (suffix_of_cons h)

/-! ## Scans -/

/-- A scan moves the cursor of a line.  It has no answer if a move ends inside of a character. -/
abbrev Scan := StateT Cursor Option

namespace Scan

open Cursor (place)

variable {α β : Type}

/-- A look at what is ahead. -/
def look (f : Cursor → α) : Scan α := fun cursor => some (f cursor, cursor)

/-- A move of the cursor, which may not end inside of a character. -/
def move (f : Cursor → α × Cursor) : Scan α := fun cursor =>
  let (a, behind) := f cursor
  if behind.split = [] then some (a, behind) else none

/-- Is there a next byte, and is it in the class? -/
def next (isByte : UInt8 → Bool) : Scan Bool := look fun cursor => (cursor.peekAt 0).any isByte

/-- Is an ASCII character next? -/
def nextIs (c : Char) : Scan Bool := next (· == UInt8.ofNat c.toNat)

/-- Is nothing ahead? -/
def atEnd : Scan Bool := look Cursor.atEnd

/-- The text ahead. -/
def rest : Scan (List Char) := look Cursor.rest

/-- Passes over the next byte. -/
def bump : Scan Unit := move fun cursor => ((), cursor.bump)

/-- Passes over a byte, if that byte is next. -/
def eatByte (byte : UInt8) : Scan Bool := move fun cursor =>
  match cursor.eat? byte with
  | some behind => (true, behind)
  | none => (false, cursor)

/-- Passes over an ASCII character, if its byte is next. -/
def eat (c : Char) : Scan Bool := eatByte (UInt8.ofNat c.toNat)

/-- Passes over the bytes of an ASCII word, if they are next in either case. -/
def eatWord (word : List Char) : Scan Bool := move fun cursor =>
  if (cursor.bytes.take word.length).map lowerByte = (utf8Bytes word).map lowerByte then
    (true, Cursor.bump^[word.length] cursor)
  else
    (false, cursor)

/-- Passes over the bytes of a class, and answers their text. -/
def takeWhile (isByte : UInt8 → Bool) : Scan (List Char) := move (·.takeWhile isByte)

/-- Passes over spaces. -/
def skipSpaces : Scan Unit := do
  let _ ← takeWhile Cursor.isSpaceByte

/-- Passes over spaces and commas. -/
def skipCommas : Scan Unit := move fun cursor => ((), cursor.skipSeparators [0x2c])

/-- A scan on a copy of the cursor, which is kept if the scan finds something. -/
def attempt (scan : Scan (Option α)) : Scan (Option α) := fun cursor =>
  (scan cursor).map fun (answer, behind) => (answer, if answer.isSome then behind else cursor)

/-- Goes on with what is found, and finds nothing otherwise. -/
def ifFound (found : Option β) (next : β → Scan (Option α)) : Scan (Option α) :=
  match found with
  | none => pure none
  | some b => next b

/-! ### Steps -/

/-- In front of the end `text` of a line the scan answers `answer.1`, and it stops in front of
the end `answer.2` of `text`. -/
def Steps (line : List Char) (scan : Scan α) (text : List Char) (answer : α × List Char) : Prop :=
  text <:+ line → answer.2 <:+ text ∧
    scan (place line text) = some (answer.1, place line answer.2)

namespace Steps

variable {line text left : List Char} {a : α} {isByte : UInt8 → Bool} {isMember : Char → Bool}

theorem pure (a : α) : Steps line (Pure.pure a) text (a, text) :=
  fun _ => ⟨List.suffix_rfl, rfl⟩

/-- Two scans, one behind the other. -/
theorem bind {scan : Scan α} {next : α → Scan β} {answer : β × List Char}
    (h : Steps line scan text (a, left)) (k : Steps line (next a) left answer) :
    Steps line (scan >>= next) text answer := by
  intro hrest
  obtain ⟨hleft, hscan⟩ := h hrest
  obtain ⟨hanswer, hnext⟩ := k (hleft.trans hrest)
  refine ⟨hanswer.trans hleft, ?_⟩
  rw [← hnext]
  show (scan (place line text)).bind _ = _
  rw [hscan]
  rfl

theorem ite_pos {c : Prop} [Decidable c] {scan scan' : Scan α} {answer : α × List Char} (hc : c)
    (h : Steps line scan text answer) : Steps line (if c then scan else scan') text answer := by
  rwa [if_pos hc]

theorem ite_neg {c : Prop} [Decidable c] {scan scan' : Scan α} {answer : α × List Char} (hc : ¬c)
    (h : Steps line scan' text answer) : Steps line (if c then scan else scan') text answer := by
  rwa [if_neg hc]

theorem ifFound_none {found : Option β} {next : β → Scan (Option α)} (h : found = none) :
    Steps line (ifFound found next) text (none, text) := by
  rw [h]
  exact pure none

theorem ifFound_some {found : Option β} {b : β} {next : β → Scan (Option α)}
    {answer : Option α × List Char} (h : found = some b) (k : Steps line (next b) text answer) :
    Steps line (ifFound found next) text answer := by
  rwa [h]

theorem look (f : Cursor → α) : Steps line (look f) text (f (place line text), text) :=
  fun _ => ⟨List.suffix_rfl, rfl⟩

theorem move {f : Cursor → α × Cursor} (hleft : left <:+ text)
    (h : text <:+ line → f (place line text) = (a, place line left)) :
    Steps line (move f) text (a, left) := by
  intro hrest
  refine ⟨hleft, ?_⟩
  unfold Scan.move
  rw [h hrest]
  rfl

theorem next {b : Bool} (h : Bytewise isByte isMember) (hb : startsWith isMember text = b) :
    Steps line (next isByte) text (b, text) := by
  have hlook : Steps line (Scan.next isByte) text (((place line text).peekAt 0).any isByte, text) :=
    look _
  rwa [Cursor.any_peekAt_place h, hb] at hlook

theorem atEnd : Steps line atEnd text (text.isEmpty, text) := by
  have hlook : Steps line Scan.atEnd text ((place line text).atEnd, text) := look _
  cases text with
  | nil => exact hlook
  | cons c text =>
    obtain ⟨byte, bytes, hbytes⟩ := List.exists_cons_of_ne_nil (Text.utf8EncodeChar_ne_nil c)
    have hend : (place line (c :: text)).atEnd = false := by simp [Cursor.atEnd, hbytes]
    rwa [hend] at hlook

theorem rest : Steps line Scan.rest text (text, text) :=
  look Cursor.rest

theorem bump {c : Char} (hc : c.toNat < 128) : Steps line bump (c :: left) ((), left) :=
  move (List.suffix_cons c left) fun htext => by rw [Cursor.bump_place hc htext]

theorem eat_of_some {c : Char} (hc : c.toNat < 128) (h : skipChar? c text = some left) :
    Steps line (eat c) text (true, left) := by
  rw [skipChar?_eq_some] at h
  subst h
  refine move (List.suffix_cons c left) fun htext => ?_
  have hbyte : (place line (c :: left)).peekAt 0 = some (UInt8.ofNat c.toNat) := by
    simp [Cursor.peekAt, Text.utf8EncodeChar_of_lt hc]
  simp only [Cursor.eat?, hbyte, if_true, Cursor.bump_place hc htext]

theorem eat_of_none {c : Char} (hc : c.toNat < 128) (h : skipChar? c text = none) :
    Steps line (eat c) text (false, text) := by
  have hstart : startsWith (· == c) text = false := by
    cases text with
    | nil => rfl
    | cons d text => simpa [skipChar?, startsWith] using h
  refine move List.suffix_rfl fun _ => ?_
  have hpeek : ((place line text).peekAt 0).any (· == UInt8.ofNat c.toNat) = false :=
    (Cursor.any_peekAt_place (Bytewise.single hc)).trans hstart
  have hbyte : (place line text).peekAt 0 ≠ some (UInt8.ofNat c.toNat) := by
    intro hbyte
    rw [hbyte] at hpeek
    simp at hpeek
  simp [Cursor.eat?, hbyte]

theorem takeWhile (h : Bytewise isByte isMember) :
    Steps line (takeWhile isByte) text (text.takeWhile isMember, text.dropWhile isMember) :=
  move (List.dropWhile_suffix isMember) (Cursor.takeWhile_place h)

theorem eatWord_of_some {word : List Char} (hword : ∀ c ∈ word, c.toNat < 128)
    (h : skipWord? word text = some left) : Steps line (eatWord word) text (true, left) := by
  unfold skipWord? at h
  split at h
  · next hsame =>
    obtain rfl := Option.some.inj h
    have hlength : (text.take word.length).length = word.length :=
      length_eq_of_sameLetters hsame
    have hbump := @Cursor.iterate_bump_place line (text.take word.length) (text.drop word.length)
      (ascii_of_sameLetters hword hsame)
    rw [List.take_append_drop, hlength] at hbump
    refine move (List.drop_suffix _ _) fun htext => ?_
    rw [Cursor.bytes_place, if_pos ((sameLetters_take_iff hword).2 hsame), hbump htext]
  · cases h

theorem eatWord_of_none {word : List Char} (hword : ∀ c ∈ word, c.toNat < 128)
    (h : skipWord? word text = none) : Steps line (eatWord word) text (false, text) := by
  unfold skipWord? at h
  split at h
  · cases h
  · next hsame =>
    refine move List.suffix_rfl fun _ => ?_
    rw [Cursor.bytes_place, if_neg fun hbytes => hsame ((sameLetters_take_iff hword).1 hbytes)]

theorem skipSpaces : Steps line skipSpaces text ((), X86Listing.skipSpaces text) :=
  (takeWhile Bytewise.isSpaceByte).bind (pure ())

theorem skipCommas : Steps line skipCommas text ((), X86Listing.skipCommas text) := by
  have hclass : Bytewise (fun byte => Cursor.isSpaceByte byte || [0x2c].contains byte)
      (fun c => isSpace c || c == ',') := by
    have hcomma := Bytewise.isSpaceByte.or (Bytewise.single (d := ',') (by decide))
    intro c byte hbyte
    rw [← hcomma c byte hbyte]
    simp
    rfl
  refine move (List.dropWhile_suffix _) fun hrest => ?_
  rw [Cursor.skipSeparators, Cursor.takeWhile_place hclass hrest]
  rfl

theorem attempt_some {scan : Scan (Option α)} (h : Steps line scan text (some a, left)) :
    Steps line (attempt scan) text (some a, left) := by
  intro hrest
  obtain ⟨hleft, hscan⟩ := h hrest
  refine ⟨hleft, ?_⟩
  rw [attempt, hscan]
  rfl

theorem attempt_none {scan : Scan (Option α)} (h : Steps line scan text (none, left)) :
    Steps line (attempt scan) text (none, text) := by
  intro hrest
  obtain ⟨-, hscan⟩ := h hrest
  refine ⟨List.suffix_rfl, ?_⟩
  rw [attempt, hscan]
  rfl

end Steps

end Scan

end X86Listing
