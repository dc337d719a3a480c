import X86Listing.Instruction.Listing
import X86Listing.Proofs.Instruction.Mnemonic
import X86Listing.Proofs.Operand.Reading
import X86Listing.Proofs.Text.Digits
import X86Listing.Proofs.Text.Words

/-!
# Reading listings back

The text of an instruction is made of words and gaps.  `Instruction.words` lists those behind
the mnemonic, and the text can be cut in one way only (`Text.words_joined`), so
`Instruction.ofListing?` gets them back.  The gaps tell the shape, together with which words are
registers and which are numbers (`Instruction.ofWords?`).

`Instruction.ofListing?_listing` says that every instruction whose registers have names is read
back from its text, and so no two of them have the same text.  A call is an exception to the
cutting: its target can be any text.
-/

namespace X86Listing

open Text (isHexDigit ofDigits hex findIgnoreCase? IsWord IsSeparator Alternates joined)

/-! ## Words -/

/-- A word of a listing behind the mnemonic. -/
inductive Word where
  /-- A register by its name. -/
  | reg (reg : Reg)
  /-- A number in hexadecimal. -/
  | hex (value : UInt32)
  /-- A number in decimal. -/
  | decimal (value : UInt32)

namespace Word

/-- How a word is written. -/
def text : Word → String
  | reg r => r.name
  | hex value => Text.hex value.toNat
  | decimal value => toString value.toNat

/-- The word of a text: a register, or a number in hexadecimal behind `0x` and in decimal
otherwise. -/
def ofText (text : List Char) : Word :=
  match findIgnoreCase? Reg.spellings text with
  | some r => reg r
  | none =>
    if text.take 2 = ['0', 'x'] then hex (UInt32.ofNat (ofDigits 16 (text.drop 2)))
    else decimal (UInt32.ofNat (ofDigits 10 text))

/-- Does the word show in the listing as itself?  A register that no listing can name does
not. -/
def IsReadable : Word → Prop
  | reg r => r.IsSpelled
  | hex _ => True
  | decimal _ => True

theorem toList_hex (n : Nat) : (Text.hex n).toList = '0' :: 'x' :: Nat.toDigits 16 n := by
  simp [Text.hex]

theorem toList_decimal (n : Nat) : (toString n).toList = Nat.toDigits 10 n := by
  rw [Nat.toString_eq_ofList_toDigits, String.toList_ofList]

/-- A text that starts with a digit names no register. -/
theorem findIgnoreCase?_of_isDigit {c : Char} (hc : c.isDigit = true) (rest : List Char) :
    findIgnoreCase? Reg.spellings (c :: rest) = none := by
  cases hfind : findIgnoreCase? Reg.spellings (c :: rest) with
  | none => rfl
  | some r =>
    obtain ⟨name, hmem, hname⟩ := Text.mem_of_findIgnoreCase? hfind
    have hletter := all_isAlpha_of_sameLetters (Reg.isAlpha_of_mem_spellings hmem).2 hname c
      List.mem_cons_self
    rw [not_isAlpha_of_isDigit hc] at hletter
    cases hletter

/-- Every readable word is read back from its text. -/
theorem ofText_text {word : Word} (h : word.IsReadable) : ofText word.text.toList = word := by
  cases word with
  | reg r =>
    have hfind : findIgnoreCase? Reg.spellings r.name.toList = some r :=
      Text.findIgnoreCase?_of_mem Reg.increasing_spellings (Reg.mem_spellings h) (.refl _)
    unfold ofText text
    rw [hfind]
  | hex value =>
    have hfind : findIgnoreCase? Reg.spellings ('0' :: 'x' :: Nat.toDigits 16 value.toNat) = none :=
      findIgnoreCase?_of_isDigit rfl _
    unfold ofText text
    rw [toList_hex, hfind]
    simp [Text.ofDigits_toDigits]
  | decimal value =>
    have hdigits : ∀ c ∈ Nat.toDigits 10 value.toNat, c.isDigit = true :=
      fun c hc => Nat.isDigit_of_mem_toDigits (by decide) (by decide) hc
    obtain ⟨c, rest, hcons⟩ := List.exists_cons_of_ne_nil
      (Nat.toDigits_ne_nil (b := 10) (n := value.toNat))
    have hfind : findIgnoreCase? Reg.spellings (Nat.toDigits 10 value.toNat) = none := by
      rw [hcons]
      exact findIgnoreCase?_of_isDigit (hdigits c (by simp [hcons])) rest
    have hmark : (Nat.toDigits 10 value.toNat).take 2 ≠ ['0', 'x'] := by
      intro htake
      have hmem : 'x' ∈ (Nat.toDigits 10 value.toNat).take 2 := by simp [htake]
      exact absurd (hdigits 'x' (List.mem_of_mem_take hmem)) (by decide)
    unfold ofText text
    rw [toList_decimal, hfind]
    simp [hmark, Text.ofDigits_toDigits]

theorem isAlphanum_of_isHexDigit {c : Char} (h : isHexDigit c = true) :
    c.isAlphanum = true := by
  have hne : c ≠ '_' := by
    rintro rfl
    cases h
  simpa [continuesIdentifier, hne] using continuesIdentifier_of_isHexDigit h

/-- A word is written in letters and digits. -/
theorem isWord_text (word : Word) : IsWord word.text.toList := by
  cases word with
  | reg r =>
    obtain ⟨hne, hletters⟩ := Reg.isAlpha_name r
    exact ⟨hne, fun c hc => by simp [Char.isAlphanum, hletters c hc]⟩
  | hex value =>
    rw [text, toList_hex]
    refine ⟨by simp, fun c hc => ?_⟩
    rcases List.mem_cons.1 hc with rfl | hc
    · rfl
    rcases List.mem_cons.1 hc with rfl | hc
    · rfl
    exact isAlphanum_of_isHexDigit (Text.isHexDigit_of_mem_toDigits (by decide) (by decide) hc)
  | decimal value =>
    rw [text, toList_decimal]
    exact ⟨Nat.toDigits_ne_nil, fun c hc => isAlphanum_of_isHexDigit
      (Text.isHexDigit_of_mem_toDigits (by decide) (by decide) hc)⟩

end Word

/-! ## Words in a row -/

/-- Words with gaps behind them, as they stand in the text. -/
def written (words : List (Word × String)) : List (List Char × List Char) :=
  words.map fun (word, gap) => (word.text.toList, gap.toList)

/-- The gaps keep words apart: they hold neither letters nor digits, and only the last one may
be empty. -/
def Separate : List String → Prop
  | [] => True
  | [gap] => IsSeparator gap.toList
  | gap :: next :: more => IsSeparator gap.toList ∧ gap ≠ "" ∧ Separate (next :: more)

theorem Separate.alternates {word : List Char} {gap : String} {words : List (Word × String)}
    (hword : IsWord word) (h : Separate (gap :: words.map Prod.snd)) :
    Alternates ((word, gap.toList) :: written words) := by
  induction words generalizing word gap with
  | nil => exact .last hword h
  | cons next more ih =>
    obtain ⟨hgap, hne, hmore⟩ := h
    exact .cons hword hgap (by simpa using hne) (ih next.1.isWord_text hmore)

/-- The words of a memory operand, up to the gap `close`. -/
def MemoryOperand.words (mem : MemoryOperand) (close : String) : List (Word × String) :=
  if mem.disp = 0 then [(.reg mem.base, close)]
  else if 0x80000000 ≤ mem.disp then [(.reg mem.base, " - "), (.hex (-mem.disp), close)]
  else [(.reg mem.base, " + "), (.hex mem.disp, close)]

/-- The text of a memory operand, the rest of the gap behind it, and more text. -/
theorem MemoryOperand.listing_append (mem : MemoryOperand) (tail : String) (more : List Char) :
    mem.listing.toList ++ (tail.toList ++ more) =
      '[' :: (joined (written (mem.words ("]" ++ tail))) ++ more) := by
  unfold MemoryOperand.listing MemoryOperand.words
  dsimp only
  split_ifs <;> simp [joined, written, Word.text, toString]

theorem MemoryOperand.separate_words (mem : MemoryOperand) (opening close : String)
    (gaps : List String) (hopening : IsSeparator opening.toList) (hne : opening ≠ "")
    (hclose : Separate (close :: gaps)) :
    Separate (opening :: (mem.words close).map Prod.snd ++ gaps) := by
  unfold MemoryOperand.words
  split_ifs
  · exact ⟨hopening, hne, hclose⟩
  · exact ⟨hopening, hne, by simp [IsSeparator], by simp, hclose⟩
  · exact ⟨hopening, hne, by simp [IsSeparator], by simp, hclose⟩

/-! ## The words of an instruction -/

namespace Instruction

/-- The gap behind the mnemonic. -/
def opening : Instruction → String
  | retn => ""
  | mem .. => " ["
  | memReg .. => " ["
  | memImm .. => " ["
  | _ => " "

/-- The words behind the mnemonic, each with the gap behind it.  The target of a call is not made
of words. -/
def words : Instruction → List (Word × String)
  | retn => []
  | call _ => []
  | reg _ r0 => [(.reg r0, "")]
  | imm _ v0 => [(.hex v0, "")]
  | regReg _ r0 r1 => [(.reg r0, ", "), (.reg r1, "")]
  | shrd r0 r1 r2 => [(.reg r0, ", "), (.reg r1, ", "), (.reg r2, "")]
  | regImm _ r0 v0 => [(.reg r0, ", "), (.hex v0, "")]
  | regMem _ r0 operand => (.reg r0, ", [") :: operand.words "]"
  | lea r0 r1 r2 index v0 =>
    [(.reg r0, ", ["), (.reg r1, " + "), (.reg r2, " " ++ index.sign ++ " "), (.hex v0, "]")]
  | jumpTable _ v0 r0 v1 => [(.hex v0, "["), (.reg r0, " * "), (.decimal v1, "]")]
  | mem _ operand => operand.words "]"
  | memReg _ operand r1 => operand.words "], " ++ [(.reg r1, "")]
  | memImm _ operand v1 => operand.words "], " ++ [(.hex v1, "")]

/-- The mnemonic, the words and the gaps as they stand in the text. -/
def parts (instruction : Instruction) : List (List Char × List Char) :=
  (instruction.mnemonic.toList, instruction.opening.toList) :: written instruction.words

theorem isWord_conditionMnemonic (condition : Condition) : IsWord condition.mnemonic.toList := by
  cases condition <;> simp [IsWord, Condition.mnemonic]

/-- Every mnemonic is a word of letters. -/
theorem isWord_mnemonic (instruction : Instruction) : IsWord instruction.mnemonic.toList := by
  cases instruction with
  | reg op =>
    cases op with
    | jump condition => exact isWord_conditionMnemonic condition
    | push | pop | not | inc | dec => simp [IsWord, mnemonic, RegOp.mnemonic]
  | imm op =>
    cases op with
    | jump condition => exact isWord_conditionMnemonic condition
    | push => simp [IsWord, mnemonic, ImmOp.mnemonic]
  | jumpTable condition => exact isWord_conditionMnemonic condition
  | regReg op | regImm op => cases op <;> simp [IsWord, mnemonic, PairOp.mnemonic]
  | regMem op => cases op <;> simp [IsWord, mnemonic, LoadOp.mnemonic]
  | mem op => cases op <;> simp [IsWord, mnemonic, WideOp.mnemonic]
  | memReg op | memImm op => cases op <;> simp [IsWord, mnemonic, StoreOp.mnemonic]
  | retn | call | shrd | lea => simp [IsWord, mnemonic]

/-- The text of an instruction is that of its words. -/
theorem listing_eq_joined {instruction : Instruction}
    (h : ∀ target, instruction ≠ call target) :
    instruction.listing.toList = joined instruction.parts := by
  cases instruction with
  | call target => exact absurd rfl (h target)
  | regMem op r0 operand =>
    simpa [listing, parts, joined, written, words, opening, mnemonic, Word.text] using
      operand.listing_append "" []
  | mem op operand =>
    simpa [listing, parts, joined, written, words, opening, mnemonic, Word.text] using
      operand.listing_append "" []
  | memReg op operand r1 =>
    simpa [listing, parts, joined, written, words, opening, mnemonic, Word.text] using
      operand.listing_append ", " r1.name.toList
  | memImm op operand v1 =>
    simpa [listing, parts, joined, written, words, opening, mnemonic, Word.text] using
      operand.listing_append ", " (Text.hex v1.toNat).toList
  | retn | reg | imm | regReg | shrd | regImm | lea | jumpTable =>
    simp [listing, parts, joined, written, words, opening, mnemonic, Word.text]

theorem separate_gaps (instruction : Instruction) :
    Separate (instruction.opening :: instruction.words.map Prod.snd) := by
  cases instruction with
  | regMem op r0 operand =>
    exact ⟨by simp [opening, IsSeparator], by simp [opening], by
      simpa using operand.separate_words ", [" "]" []
        (by simp [IsSeparator]) (by simp) (by simp [Separate, IsSeparator])⟩
  | mem op operand =>
    simpa [opening, words] using operand.separate_words " [" "]" []
        (by simp [IsSeparator]) (by simp) (by simp [Separate, IsSeparator])
  | memReg op operand =>
    simpa [opening, words] using operand.separate_words " [" "], " [""]
        (by simp [IsSeparator]) (by simp) (by simp [Separate, IsSeparator])
  | memImm op operand =>
    simpa [opening, words] using operand.separate_words " [" "], " [""]
        (by simp [IsSeparator]) (by simp) (by simp [Separate, IsSeparator])
  | lea r0 r1 r2 index =>
    cases index <;> simp [opening, words, Separate, IsSeparator, IndexOp.sign]
  | retn | call | reg | imm | regReg | shrd | regImm | jumpTable =>
    simp [opening, words, Separate, IsSeparator]

theorem words_listing {instruction : Instruction} (h : ∀ target, instruction ≠ call target) :
    Text.words instruction.listing.toList = instruction.parts := by
  rw [listing_eq_joined h]
  exact Text.words_joined ((separate_gaps instruction).alternates (isWord_mnemonic instruction))

end Instruction

/-! ## Reading back -/

/-- A memory operand at the front of a list of words, the gap behind it, and the words that are
left. -/
def MemoryOperand.ofWords? : List (Word × String) →
    Option (MemoryOperand × String × List (Word × String))
  | (.reg base, " + ") :: (.hex v, close) :: rest => some (⟨base, v⟩, close, rest)
  | (.reg base, " - ") :: (.hex v, close) :: rest => some (⟨base, -v⟩, close, rest)
  | (.reg base, close) :: rest => some (⟨base, 0⟩, close, rest)
  | _ => none

/-- A memory operand is read back with the sign of its displacement. -/
theorem MemoryOperand.ofWords?_words (mem : MemoryOperand) (close : String)
    (hplus : close ≠ " + ") (hminus : close ≠ " - ") (rest : List (Word × String)) :
    ofWords? (mem.words close ++ rest) = some (mem, close, rest) := by
  obtain ⟨base, disp⟩ := mem
  unfold MemoryOperand.words
  split_ifs with hzero hsign
  · subst hzero
    unfold ofWords?
    simp [hplus, hminus]
  · simp [ofWords?]
  · simp [ofWords?]

/-! ### Operations -/

/-- An operation is found in a table under its own mnemonic. -/
theorem Mnemonics.Ordered.find?_mnemonic {α : Type} {table : Mnemonics α} {mnemonic : α → String}
    {op : α} (h : table.Ordered mnemonic) (hop : table.Lists op) :
    table.find? (mnemonic op).toList = some op := by
  obtain ⟨key, hmem⟩ := hop
  obtain rfl : key = mnemonic op := h.mnemonic_eq _ (Array.mem_toList_iff.2 hmem)
  exact Text.findIgnoreCase?_of_mem h.increasing hmem (.refl _)

@[simp] theorem RegOp.find?_mnemonic (op : RegOp) :
    RegOp.table.find? op.mnemonic.toList = some op := by
  refine RegOp.table_ordered.find?_mnemonic ?_
  cases op with
  | jump condition => cases condition <;> simp [Mnemonics.Lists, RegOp.table]
  | push | pop | not | inc | dec => simp [Mnemonics.Lists, RegOp.table]

@[simp] theorem ImmOp.find?_mnemonic (op : ImmOp) :
    ImmOp.table.find? op.mnemonic.toList = some op := by
  refine ImmOp.table_ordered.find?_mnemonic ?_
  cases op with
  | jump condition => cases condition <;> simp [Mnemonics.Lists, ImmOp.table]
  | push => simp [Mnemonics.Lists, ImmOp.table]

@[simp] theorem PairOp.find?_mnemonic (op : PairOp) :
    PairOp.registerTable.find? op.mnemonic.toList = some op :=
  PairOp.registerTable_ordered.find?_mnemonic
    (by cases op <;> simp [Mnemonics.Lists, PairOp.registerTable])

@[simp] theorem LoadOp.find?_mnemonic (op : LoadOp) :
    LoadOp.table.find? op.mnemonic.toList = some op :=
  LoadOp.table_ordered.find?_mnemonic (by cases op <;> simp [Mnemonics.Lists, LoadOp.table])

@[simp] theorem Condition.find?_mnemonic (condition : Condition) :
    Condition.table.find? condition.mnemonic.toList = some condition :=
  Condition.table_ordered.find?_mnemonic
    (by cases condition <;> simp [Mnemonics.Lists, Condition.table])

@[simp] theorem WideOp.find?_mnemonic (op : WideOp) :
    WideOp.table.find? op.mnemonic.toList = some op :=
  WideOp.table_ordered.find?_mnemonic (by cases op <;> simp [Mnemonics.Lists, WideOp.table])

@[simp] theorem StoreOp.find?_mnemonic (op : StoreOp) :
    StoreOp.table.find? op.mnemonic.toList = some op :=
  StoreOp.table_ordered.find?_mnemonic (by cases op <;> simp [Mnemonics.Lists, StoreOp.table])

/-! ### Instructions -/

namespace Instruction

/-- The instruction of a mnemonic, the gap behind it, and the words behind that.  The gap tells
whether memory comes first. -/
def ofWords? (mnemonic : List Char) (opening : String) (words : List (Word × String)) :
    Option Instruction :=
  if opening = " [" then
    match MemoryOperand.ofWords? words with
    | some (operand, _, []) => (WideOp.table.find? mnemonic).map (mem · operand)
    | some (operand, _, [(.reg r1, _)]) => (StoreOp.table.find? mnemonic).map (memReg · operand r1)
    | some (operand, _, [(.hex v1, _)]) => (StoreOp.table.find? mnemonic).map (memImm · operand v1)
    | _ => none
  else
    match words with
    | [] => some retn
    | [(.reg r0, _)] => (RegOp.table.find? mnemonic).map (reg · r0)
    | [(.hex v0, _)] => (ImmOp.table.find? mnemonic).map (imm · v0)
    | [(.hex v0, _), (.reg r0, _), (.decimal v1, _)] =>
      (Condition.table.find? mnemonic).map (jumpTable · v0 r0 v1)
    | [(.reg r0, ", "), (.reg r1, _)] =>
      (PairOp.registerTable.find? mnemonic).map (regReg · r0 r1)
    | [(.reg r0, ", "), (.hex v0, _)] =>
      (PairOp.registerTable.find? mnemonic).map (regImm · r0 v0)
    | [(.reg r0, ", "), (.reg r1, _), (.reg r2, _)] => some (shrd r0 r1 r2)
    | [(.reg r0, _), (.reg r1, _), (.reg r2, " + "), (.hex v0, _)] => some (lea r0 r1 r2 .add v0)
    | [(.reg r0, _), (.reg r1, _), (.reg r2, _), (.hex v0, _)] => some (lea r0 r1 r2 .mul v0)
    | (.reg r0, _) :: more =>
      match MemoryOperand.ofWords? more with
      | some (operand, _, []) => (LoadOp.table.find? mnemonic).map (regMem · r0 operand)
      | _ => none
    | _ => none

/-- Every instruction but a call is read back from its mnemonic, gaps and words. -/
theorem ofWords?_words {instruction : Instruction} (h : ∀ target, instruction ≠ call target) :
    ofWords? instruction.mnemonic.toList instruction.opening instruction.words =
      some instruction := by
  cases instruction with
  | call target => exact absurd rfl (h target)
  | mem op operand =>
    have hread := operand.ofWords?_words "]" (by decide) (by decide) []
    rw [List.append_nil] at hread
    simp [ofWords?, opening, words, mnemonic, hread]
  | memReg op operand r1 =>
    have hread := operand.ofWords?_words "], " (by decide) (by decide) [(.reg r1, "")]
    simp [ofWords?, opening, words, mnemonic, hread]
  | memImm op operand v1 =>
    have hread := operand.ofWords?_words "], " (by decide) (by decide) [(.hex v1, "")]
    simp [ofWords?, opening, words, mnemonic, hread]
  | regMem op r0 operand =>
    have hread := operand.ofWords?_words "]" (by decide) (by decide) []
    rw [List.append_nil] at hread
    -- the patterns before the one of a load look at the first words of the operand
    unfold MemoryOperand.words at hread
    split_ifs at hread with hzero hsign
    · simp [ofWords?, opening, words, mnemonic, MemoryOperand.words, hzero, hread]
    · simp [ofWords?, opening, words, mnemonic, MemoryOperand.words, hzero, hsign, hread]
    · simp [ofWords?, opening, words, mnemonic, MemoryOperand.words, hzero, hsign, hread]
  | lea r0 r1 r2 index v0 =>
    cases index <;> simp [ofWords?, opening, words, IndexOp.sign]
  | retn | reg | imm | regReg | shrd | regImm | jumpTable =>
    simp [ofWords?, opening, words, mnemonic]

/-! ### Texts -/

/-- The instruction of a text.  The target of a call is all that stands behind the mnemonic and
one space. -/
def ofListing? (text : List Char) : Option Instruction :=
  if text.takeWhile Char.isAlphanum = "call".toList then
    some (call (String.ofList (text.drop 5)))
  else
    match Text.words text with
    | [] => none
    | (mnemonic, opening) :: rest =>
      ofWords? mnemonic (String.ofList opening)
        (rest.map fun (word, gap) => (Word.ofText word, String.ofList gap))

theorem conditionMnemonic_ne_call (condition : Condition) : condition.mnemonic ≠ "call" := by
  cases condition <;> simp [Condition.mnemonic]

/-- Only the mnemonic of a call is `call`. -/
theorem mnemonic_ne_call {instruction : Instruction} (h : ∀ target, instruction ≠ call target) :
    instruction.mnemonic ≠ "call" := by
  cases instruction with
  | call target => exact absurd rfl (h target)
  | reg op =>
    cases op with
    | jump condition => exact conditionMnemonic_ne_call condition
    | push | pop | not | inc | dec => simp [mnemonic, RegOp.mnemonic]
  | imm op =>
    cases op with
    | jump condition => exact conditionMnemonic_ne_call condition
    | push => simp [mnemonic, ImmOp.mnemonic]
  | jumpTable condition => exact conditionMnemonic_ne_call condition
  | regReg op | regImm op => cases op <;> simp [mnemonic, PairOp.mnemonic]
  | regMem op => cases op <;> simp [mnemonic, LoadOp.mnemonic]
  | mem op => cases op <;> simp [mnemonic, WideOp.mnemonic]
  | memReg op | memImm op => cases op <;> simp [mnemonic, StoreOp.mnemonic]
  | retn | shrd | lea => simp [mnemonic]

/-- The text of an instruction starts with the mnemonic. -/
theorem takeWhile_listing (instruction : Instruction) :
    instruction.listing.toList.takeWhile Char.isAlphanum = instruction.mnemonic.toList := by
  have happend : ∃ rest, instruction.listing.toList = instruction.mnemonic.toList ++ rest ∧
      startsWith Char.isAlphanum rest = false := by
    cases instruction with
    | retn => exact ⟨[], by simp [listing, mnemonic], rfl⟩
    | _ => exact ⟨' ' :: _, by simp [listing, mnemonic]; rfl, rfl⟩
  obtain ⟨rest, hlisting, hrest⟩ := happend
  rw [hlisting, takeWhile_run (isWord_mnemonic instruction).2 hrest]

/-- All registers of the instruction have a name. -/
def NamesRegisters (instruction : Instruction) : Prop :=
  ∀ r ∈ instruction.registers, r.IsSpelled

/-- The register of a memory operand is its base. -/
theorem eq_base_of_mem_words {operand : MemoryOperand} {close gap : String} {r : Reg}
    (h : (Word.reg r, gap) ∈ operand.words close) : r = operand.base := by
  unfold MemoryOperand.words at h
  split_ifs at h <;> simp at h <;> exact h.1

/-- The words name no other registers than the instruction. -/
theorem mem_registers_of_mem_words {instruction : Instruction} {r : Reg} {gap : String}
    (h : (Word.reg r, gap) ∈ instruction.words) : r ∈ instruction.registers := by
  cases instruction <;> simp [words] at h <;> grind [registers, eq_base_of_mem_words]

theorem isReadable_words {instruction : Instruction} (h : instruction.NamesRegisters) :
    ∀ entry ∈ instruction.words, entry.1.IsReadable := by
  rintro ⟨word, gap⟩ hentry
  cases word with
  | reg r => exact h r (mem_registers_of_mem_words hentry)
  | hex value => trivial
  | decimal value => trivial

theorem ofText_written {words : List (Word × String)} (h : ∀ entry ∈ words, entry.1.IsReadable) :
    (written words).map (fun (word, gap) => (Word.ofText word, String.ofList gap)) = words := by
  induction words with
  | nil => rfl
  | cons entry words ih =>
    simp only [written, List.map_cons, String.ofList_toList] at ih ⊢
    rw [Word.ofText_text (h entry List.mem_cons_self),
      ih fun other hother => h other (List.mem_cons_of_mem entry hother)]

/-- Every instruction is read back from its text. -/
theorem ofListing?_listing {instruction : Instruction} (h : instruction.NamesRegisters) :
    ofListing? instruction.listing.toList = some instruction := by
  unfold ofListing?
  rw [takeWhile_listing]
  by_cases hcall : ∃ target, instruction = call target
  · obtain ⟨target, rfl⟩ := hcall
    simp [mnemonic, listing]
  · have hother : ∀ target, instruction ≠ call target := fun target he => hcall ⟨target, he⟩
    have hmnemonic : instruction.mnemonic.toList ≠ "call".toList :=
      fun he => mnemonic_ne_call hother (String.toList_inj.1 he)
    rw [if_neg hmnemonic, words_listing hother]
    simp only [parts, String.ofList_toList, ofText_written (isReadable_words h)]
    exact ofWords?_words hother

/-- An instruction whose registers have names is read back from its text, so no other one has
the same text. -/
theorem listing_injective :
    (∀ instruction : Instruction, instruction.NamesRegisters →
      ofListing? instruction.listing.toList = some instruction) ∧
    ∀ first second : Instruction, first.NamesRegisters → second.NamesRegisters →
      first.listing = second.listing → first = second := by
  refine ⟨fun _ => ofListing?_listing, fun first second hfirst hsecond heq => ?_⟩
  have hread := ofListing?_listing hfirst
  rw [heq, ofListing?_listing hsecond] at hread
  exact (Option.some.inj hread).symm

/-- The lowest displacement stands as a number behind a minus. -/
theorem listing_injective_lowest :
    (memImm .mov ⟨.ebp, 0x80000000⟩ 10).NamesRegisters ∧
      (memImm .mov ⟨.ebp, 0x80000000⟩ 10).listing = "mov [ebp - 0x80000000], 0xa" ∧
      ofListing? "mov [ebp - 0x80000000], 0xa".toList =
        some (memImm .mov ⟨.ebp, 0x80000000⟩ 10) ∧
      ∀ other : Instruction, other.NamesRegisters →
        other.listing = "mov [ebp - 0x80000000], 0xa" →
        other = memImm .mov ⟨.ebp, 0x80000000⟩ 10 := by
  obtain ⟨hread, hinjective⟩ := listing_injective
  have hnames : (memImm .mov ⟨.ebp, 0x80000000⟩ 10).NamesRegisters := by
    simp only [NamesRegisters, registers, List.forall_mem_singleton]
    exact ⟨"ebp", by simp [Reg.spellings]⟩
  have htext : (memImm .mov ⟨.ebp, 0x80000000⟩ 10).listing = "mov [ebp - 0x80000000], 0xa" := by
    decide +kernel
  refine ⟨hnames, htext, ?_, fun other hother heq => hinjective _ _ hother hnames ?_⟩
  · rw [← htext, hread _ hnames]
  · rw [heq, htext]

/-- Registers without a name show alike. -/
example : (reg .push .eflags).listing = (reg .push ⟨0x14⟩).listing := by decide +kernel

end Instruction

end X86Listing
