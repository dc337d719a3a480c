import X86Listing.Proofs.Instruction.Mnemonic
import X86Listing.Proofs.Operand.Reading

/-!
# Decoding finds the spelled instruction

Every spelling of an instruction is decoded as that instruction, whatever names are
known, and every line that is decoded starts with the mnemonic of a well-formed
instruction (`decode_spelledBy`).

* `Decoder.displacement_eq`, `Decoder.registerFirst_regReg` and the like read one part
  or one shape of operand list each.  In each of them the readers that come before the
  right one are shown not to answer.
* `Decoder.operands_eq_ok` puts the shapes together.
* `Decoder.operands_wellFormed` goes through the same decoders in the other direction.
* `mnemonic?_eq` and `firstWord_eq_of_mnemonic?` take the mnemonic off the line.
-/

namespace X86Listing

open Text (isSpace SameLetters)

namespace Decoder

variable {symbols : Symbols} {tokens more tail : List Token} {name text : List Char}

/-! ## Parts of an operand -/

theorem punctuation_eq {c : Char} (h : Spells (.mark c :: tokens) text) (expected : String) :
    ∃ rest, punctuation c expected text = .ok rest ∧ Spells tokens rest := by
  obtain ⟨tail, rfl, hrest⟩ := h.eq_mark
  exact ⟨_, by simp [punctuation, skipChar?], hrest⟩

theorem register_eq {reg : Reg} (hreg : reg.IsSpelled) (h : Spells (.reg reg :: tokens) text)
    (hbounded : Bounded tokens) :
    ∃ rest, register text = .ok (reg, rest) ∧ Spells tokens rest := by
  obtain ⟨rest, hread, hrest⟩ := h.register?_eq hreg hbounded
  exact ⟨rest, by rw [register, hread], hrest⟩

/-- A number is a value, whatever the names stand for. -/
theorem value_eq (symbols : Symbols) {v : UInt32} (h : Spells (.number v :: tokens) text)
    (hbounded : Bounded tokens) :
    ∃ rest, value symbols text = .ok (v, rest) ∧ Spells tokens rest := by
  obtain ⟨rest, hread, hrest⟩ := h.number?_eq hbounded
  refine ⟨rest, ?_, hrest⟩
  rw [value, Symbols.value?, hread, Option.some_or]

theorem finish_eq (h : Spells [] text) : finish text = .ok () := by
  cases h
  rfl

theorem displacement_eq (symbols : Symbols) {disp : UInt32} (hdisp : DisplacementTokens disp tail)
    (h : Spells (tail ++ more) text) :
    ∃ rest, displacement symbols text = .ok (disp, rest) ∧ Spells more rest := by
  cases hdisp with
  | zero =>
    obtain ⟨rest, rfl, hrest⟩ := Spells.eq_mark h
    exact ⟨_, by simp [displacement, skipChar?], hrest⟩
  | plus v =>
    obtain ⟨rest, rfl, hvalue⟩ := Spells.eq_mark h
    obtain ⟨rest', hread, hclose⟩ := value_eq symbols hvalue trivial
    obtain ⟨rest'', hpunctuation, hrest⟩ := punctuation_eq hclose "`]`"
    refine ⟨rest'', ?_, hrest⟩
    simp [displacement, skipChar?, hread, hpunctuation, except_ok_bind]
  | minus v =>
    obtain ⟨rest, rfl, hvalue⟩ := Spells.eq_mark h
    obtain ⟨rest', hread, hclose⟩ := value_eq symbols hvalue trivial
    obtain ⟨rest'', hpunctuation, hrest⟩ := punctuation_eq hclose "`]`"
    refine ⟨rest'', ?_, hrest⟩
    simp [displacement, skipChar?, hread, hpunctuation, except_ok_bind]

theorem bounded_append {disp : UInt32} (hdisp : DisplacementTokens disp tail)
    (more : List Token) : Bounded (tail ++ more) := by
  cases hdisp <;> trivial

theorem memory_eq (symbols : Symbols) {base : Reg} {disp : UInt32} (hbase : base.IsSpelled)
    (hdisp : DisplacementTokens disp tail)
    (h : Spells (.mark '[' :: .reg base :: (tail ++ more)) text) :
    ∃ rest, memory symbols text = .ok (⟨base, disp⟩, rest) ∧ Spells more rest := by
  obtain ⟨rest, hopen, hreg⟩ := punctuation_eq h "`[`"
  obtain ⟨rest', hregister, htail⟩ := register_eq hbase hreg (bounded_append hdisp more)
  obtain ⟨rest'', hdisplacement, hrest⟩ := displacement_eq symbols hdisp htail
  refine ⟨rest'', ?_, hrest⟩
  simp only [memory, hopen, hregister, hdisplacement, except_ok_bind]
  rfl

/-! ## Operand lists -/

/-- A number is no register and no bracket. -/
theorem not_register_of_number {v : UInt32} (h : Spells (.number v :: tokens) text) :
    text ≠ [] ∧ startsWith (· == '[') text = false ∧ register? text = none ∧
      keyword? "offset".toList text = none := by
  obtain ⟨c, tail, rfl, hc⟩ := h.exists_digit
  have hletter : c.isAlpha = false := not_isAlpha_of_isDigit hc
  refine ⟨h.ne_nil, h.not_startsWith_mark (by decide) (by simp), ?_, ?_⟩
  · exact register?_eq_none hletter
  · -- The word starts with a letter.
    have hword : c.toLower ≠ 'o' := by
      intro hlower
      rw [← Char.isAlpha_toLower_eq_isAlpha, hlower] at hletter
      cases hletter
    simp [keyword?, skipWord?, SameLetters, hword]

section MemoryFirst

variable {base : Reg} {disp : UInt32} (hbase : base.IsSpelled)
  (hdisp : DisplacementTokens disp tail)
include hbase hdisp

theorem memoryFirst_mem {op : WideOp} (hop : WideOp.table.Lists op)
    (hname : SameLetters op.mnemonic.toList name)
    (h : Spells (.mark '[' :: .reg base :: tail) text) :
    memoryFirst name symbols text = .ok (.mem op ⟨base, disp⟩) := by
  rw [← List.append_nil tail] at h
  obtain ⟨rest, hmemory, hrest⟩ := memory_eq symbols hbase hdisp h
  cases hrest
  rw [memoryFirst, hmemory, except_ok_bind]
  simp [select_eq_ok WideOp.table_ordered hop hname]

theorem memoryFirst_memReg {op : StoreOp} {r1 : Reg} (hop : StoreOp.table.Lists op)
    (hr1 : r1.IsSpelled) (hname : SameLetters op.mnemonic.toList name)
    (h : Spells (.mark '[' :: .reg base :: (tail ++ [.mark ',', .reg r1])) text) :
    memoryFirst name symbols text = .ok (.memReg op ⟨base, disp⟩ r1) := by
  obtain ⟨rest, hmemory, hcomma⟩ := memory_eq symbols hbase hdisp h
  obtain ⟨rest', hregister, hend⟩ :=
    (hcomma.skipCommas_eq (by simp)).register?_eq hr1 trivial
  have hne : skipCommas rest ≠ [] := by
    intro hnil
    rw [hnil] at hregister
    cases hregister
  rw [memoryFirst, hmemory, except_ok_bind]
  simp only [if_neg hne, hregister, finish_eq hend, except_ok_bind,
    select_eq_ok StoreOp.table_ordered hop hname]
  rfl

theorem memoryFirst_memImm {op : StoreOp} {v1 : UInt32} (hop : StoreOp.table.Lists op)
    (hname : SameLetters op.mnemonic.toList name)
    (h : Spells (.mark '[' :: .reg base :: (tail ++ [.mark ',', .number v1])) text) :
    memoryFirst name symbols text = .ok (.memImm op ⟨base, disp⟩ v1) := by
  obtain ⟨rest, hmemory, hcomma⟩ := memory_eq symbols hbase hdisp h
  have hnumber := hcomma.skipCommas_eq (by simp)
  obtain ⟨hne, -, hregister, -⟩ := not_register_of_number hnumber
  obtain ⟨rest', hvalue, hend⟩ := value_eq symbols hnumber trivial
  rw [memoryFirst, hmemory, except_ok_bind]
  simp only [if_neg hne, hregister, hvalue, finish_eq hend, except_ok_bind,
    select_eq_ok StoreOp.table_ordered hop hname]
  rfl

end MemoryFirst

section RegisterFirst

variable {r0 r1 r2 : Reg} (hr1 : r1.IsSpelled) {disp v0 : UInt32}

/-- Behind the base register there is no second register, but a displacement. -/
theorem index?_eq_none (hdisp : DisplacementTokens disp tail) (h : Spells tail text) :
    index? text = none := by
  cases hdisp with
  | zero =>
    obtain ⟨rest, rfl, -⟩ := h.eq_mark
    rfl
  | plus v =>
    obtain ⟨rest, rfl, hvalue⟩ := h.eq_mark
    obtain ⟨-, -, hregister, -⟩ := not_register_of_number hvalue
    simp [index?, skipChar?, hregister]
  | minus v =>
    obtain ⟨rest, rfl, -⟩ := h.eq_mark
    rfl

theorem indexSign_eq {sign : IndexOp} (h : Spells (.mark sign.mark :: tokens) text) :
    ∃ rest, indexSign text = .ok (sign, rest) ∧ Spells tokens rest := by
  obtain ⟨rest, rfl, hrest⟩ := h.eq_mark
  refine ⟨_, ?_, hrest⟩
  cases sign <;> simp [indexSign, IndexOp.mark, skipChar?]

include hr1

theorem registerMemory_regMem {op : LoadOp} (hop : LoadOp.table.Lists op)
    (hdisp : DisplacementTokens disp tail) (hname : SameLetters op.mnemonic.toList name)
    (h : Spells (.mark '[' :: .reg r1 :: tail) text) :
    registerMemory name r0 symbols text = .ok (.regMem op r0 ⟨r1, disp⟩) := by
  rw [← List.append_nil tail] at h
  obtain ⟨rest, hopen, hreg⟩ := punctuation_eq h "`[`"
  obtain ⟨rest', hregister, htail⟩ := register_eq hr1 hreg (bounded_append hdisp [])
  obtain ⟨rest'', hdisplacement, hend⟩ := displacement_eq symbols hdisp htail
  rw [List.append_nil] at htail
  simp only [registerMemory, hopen, hregister, index?_eq_none hdisp htail, hdisplacement,
    finish_eq hend, select_eq_ok LoadOp.table_ordered hop hname, except_ok_bind]
  rfl

theorem registerMemory_lea {sign : IndexOp} (hr2 : r2.IsSpelled)
    (hname : SameLetters "lea".toList name)
    (h : Spells [.mark '[', .reg r1, .mark '+', .reg r2, .mark sign.mark, .number v0,
      .mark ']'] text) :
    registerMemory name r0 symbols text = .ok (.lea r0 r1 r2 sign v0) := by
  obtain ⟨rest, hopen, hreg⟩ := punctuation_eq h "`[`"
  obtain ⟨rest₁, hregister, hplus⟩ := register_eq hr1 hreg trivial
  obtain ⟨rest₂, rfl, hreg⟩ := hplus.eq_mark
  obtain ⟨rest₃, hindex, hsign⟩ := hreg.register?_eq hr2 trivial
  obtain ⟨rest₄, hread, hnumber⟩ := indexSign_eq hsign
  obtain ⟨rest₅, hvalue, hclose⟩ := value_eq symbols hnumber trivial
  obtain ⟨rest₆, hpunctuation, hend⟩ := punctuation_eq hclose "`]`"
  have hindex' : index? ('+' :: rest₂) = some (r2, rest₃) := by
    simpa [index?, skipChar?] using hindex
  have hop : leaTable.Lists () := ⟨"lea", by simp [leaTable]⟩
  simp only [registerMemory, hopen, hregister, hindex', hread, hvalue, hpunctuation,
    finish_eq hend, select_eq_ok leaTable_ordered hop hname, except_ok_bind]
  rfl

omit hr1

theorem registerFirst_reg {op : RegOp} (hop : RegOp.table.Lists op)
    (hname : SameLetters op.mnemonic.toList name) (h : Spells [] text) :
    registerFirst name r0 symbols text = .ok (.reg op r0) := by
  cases h
  simp only [registerFirst, skipCommas_nil, if_pos,
    select_eq_ok RegOp.table_ordered hop hname, except_ok_bind]
  rfl

/-- A bracket behind the first register opens an operand in memory. -/
theorem registerFirst_eq_registerMemory
    (h : Spells (.mark ',' :: .mark '[' :: tokens) text) :
    ∃ rest, registerFirst name r0 symbols text = registerMemory name r0 symbols rest ∧
      Spells (.mark '[' :: tokens) rest := by
  have hopen := h.skipCommas_eq (by simp)
  refine ⟨_, ?_, hopen⟩
  obtain ⟨tail, hrest, -⟩ := hopen.eq_mark
  simp only [registerFirst, hrest]
  rfl

include hr1

theorem registerFirst_regReg {op : PairOp} (hop : PairOp.registerTable.Lists op)
    (hname : SameLetters op.mnemonic.toList name) (h : Spells [.mark ',', .reg r1] text) :
    registerFirst name r0 symbols text = .ok (.regReg op r0 r1) := by
  have hreg := h.skipCommas_eq (by simp)
  obtain ⟨rest, hregister, hend⟩ := hreg.register?_eq hr1 trivial
  cases hend
  simp only [registerFirst, if_neg hreg.ne_nil, hregister, skipCommas_nil, if_pos,
    select_eq_ok PairOp.registerTable_ordered hop hname, except_ok_bind]
  rfl

theorem registerFirst_shrd (hr2 : r2.IsSpelled) (hname : SameLetters "shrd".toList name)
    (h : Spells [.mark ',', .reg r1, .mark ',', .reg r2] text) :
    registerFirst name r0 symbols text = .ok (.shrd r0 r1 r2) := by
  have hreg := h.skipCommas_eq (by simp)
  obtain ⟨rest, hregister, hcomma⟩ := hreg.register?_eq hr1 trivial
  have hreg' := hcomma.skipCommas_eq (by simp)
  obtain ⟨rest', hregister', hend⟩ := register_eq hr2 hreg' trivial
  have hop : shrdTable.Lists () := ⟨"shrd", by simp [shrdTable]⟩
  simp only [registerFirst, if_neg hreg.ne_nil, hregister, if_neg hreg'.ne_nil, hregister',
    finish_eq hend, select_eq_ok shrdTable_ordered hop hname, except_ok_bind]
  rfl

omit hr1

theorem registerFirst_regImm {op : PairOp} (hop : PairOp.valueTable.Lists op)
    (hname : SameLetters op.mnemonic.toList name)
    (h : Spells [.mark ',', .number v0] text) :
    registerFirst name r0 symbols text = .ok (.regImm op r0 v0) := by
  have hnumber := h.skipCommas_eq (by simp)
  obtain ⟨hne, hbracket, hregister, hoffset⟩ := not_register_of_number hnumber
  obtain ⟨rest, hread, hend⟩ := hnumber.number?_eq trivial
  have hvalue : registerValue symbols (skipCommas text) = .ok (v0, rest) := by
    simp only [registerValue, hoffset, hread, Option.some_or]
  simp only [registerFirst, if_neg hne, hregister, hbracket, hvalue, finish_eq hend,
    select_eq_ok PairOp.valueTable_ordered hop hname, except_ok_bind]
  rfl

end RegisterFirst

section ValueFirst

variable {v0 : UInt32}

theorem valueFirst_imm {op : ImmOp} (hop : ImmOp.table.Lists op)
    (hname : SameLetters op.mnemonic.toList name) (h : Spells [.number v0] text) :
    valueFirst name symbols text = .ok (.imm op v0) := by
  obtain ⟨rest, hvalue, hend⟩ := value_eq symbols h trivial
  cases hend
  simp only [valueFirst, hvalue, skipChar?, finish, if_pos, except_ok_bind,
    select_eq_ok ImmOp.table_ordered hop hname]
  rfl

/-- The table of a jump can be a number or a name. -/
theorem valueFirst_jumpTable {condition : Condition} {r0 : Reg} {v1 : UInt32}
    {rest : List Char} (hop : Condition.table.Lists condition) (hr0 : r0.IsSpelled)
    (hname : SameLetters condition.mnemonic.toList name)
    (hvalue : value symbols text = .ok (v0, rest))
    (h : Spells [.mark '[', .reg r0, .mark '*', .number v1, .mark ']'] rest) :
    valueFirst name symbols text = .ok (.jumpTable condition v0 r0 v1) := by
  obtain ⟨rest₁, rfl, hreg⟩ := h.eq_mark
  obtain ⟨rest₂, hregister, hstar⟩ := register_eq hr0 hreg trivial
  obtain ⟨rest₃, hpunctuation, hnumber⟩ := punctuation_eq hstar "`*`"
  obtain ⟨rest₄, hvalue', hclose⟩ := value_eq symbols hnumber trivial
  obtain ⟨rest₅, hpunctuation', hend⟩ := punctuation_eq hclose "`]`"
  simp only [valueFirst, hvalue, skipChar?, if_pos, hregister, hpunctuation, hvalue',
    hpunctuation', finish_eq hend, select_eq_ok Condition.table_ordered hop hname,
    except_ok_bind]
  rfl

end ValueFirst

theorem callTarget_eq {target : String} (h : Spells [.name target] text) :
    callTarget text = .ok (.call target) := by
  obtain ⟨rest, hread, hend⟩ := h.identifier?_eq trivial
  simp only [callTarget, hread, finish_eq hend, except_ok_bind, String.ofList_toList]
  rfl

/-! ## The first operand -/

theorem operands_eq_memoryFirst (h : Spells (.mark '[' :: tokens) text) :
    operands name symbols text = memoryFirst name symbols text := by
  obtain ⟨tail, rfl, -⟩ := h.eq_mark
  simp [operands, startsWith]

theorem operands_eq_registerFirst {r0 : Reg} (hr0 : r0.IsSpelled)
    (h : Spells (.reg r0 :: tokens) text) (hbounded : Bounded tokens) :
    ∃ rest, operands name symbols text = registerFirst name r0 symbols rest ∧
      Spells tokens rest := by
  obtain ⟨rest, hregister, hrest⟩ := h.register?_eq hr0 hbounded
  have hbracket := h.not_startsWith_mark (c := '[') (by decide) (by simp)
  refine ⟨rest, ?_, hrest⟩
  simp only [operands, if_neg h.ne_nil, hbracket, hregister]
  rfl

theorem operands_eq_valueFirst {v0 : UInt32} (hcall : callTable.find? name = none)
    (h : Spells (.number v0 :: tokens) text) :
    operands name symbols text = valueFirst name symbols text := by
  obtain ⟨hne, hbracket, hregister, -⟩ := not_register_of_number h
  simp only [operands, if_neg hne, hbracket, hregister, hcall]
  rfl

/-- A mnemonic other than `call` takes no name. -/
theorem callTable_find?_eq_none {word : String} (hword : ¬SameLetters "call".toList word.toList)
    (hname : SameLetters word.toList name) : callTable.find? name = none := by
  cases hfind : callTable.find? name with
  | none => rfl
  | some found =>
    obtain ⟨-, hcall⟩ := of_find? callTable_ordered hfind
    exact absurd (hcall.trans hname.symm) hword

/-- A call target is no register. -/
theorem operands_call {target : String} (hregister : ¬SpellsRegister target.toList)
    (hname : SameLetters "call".toList name) (h : Spells [.name target] text) :
    operands name symbols text = .ok (.call target) := by
  obtain ⟨rest, hread, -⟩ := h.identifier?_eq trivial
  have hnone : register? text = none := (register?_eq_none_iff hread).2 hregister
  have hop : callTable.Lists () := ⟨"call", by simp [callTable]⟩
  have hfind : callTable.find? name = some () :=
    Text.findIgnoreCase?_of_mem callTable_ordered.increasing (by simp [callTable]) hname
  have hbracket := h.not_startsWith_mark (c := '[') (by decide) (by simp)
  simp only [operands, if_neg h.ne_nil, hbracket, hnone, hfind, Option.isSome_some, if_pos,
    callTarget_eq h]
  rfl

/-- The tokens of an instruction are read as that instruction. -/
theorem operands_eq_ok {instruction : Instruction} (hwell : instruction.WellFormed)
    (htokens : instruction.Tokens tokens)
    (hname : SameLetters instruction.mnemonic.toList name) (h : Spells tokens text) :
    operands name symbols text = .ok instruction := by
  cases htokens with
  | retn =>
    cases h
    have hop : retnTable.Lists () := ⟨"retn", by simp [retnTable]⟩
    simp only [operands, if_pos, select_eq_ok retnTable_ordered hop hname, except_ok_bind]
    rfl
  | call target => exact operands_call hwell.2 hname h
  | reg op r0 =>
    obtain ⟨hop, hr0⟩ := hwell
    obtain ⟨rest, heq, hrest⟩ := operands_eq_registerFirst hr0 h trivial
    rw [heq, registerFirst_reg hop hname hrest]
  | imm op v0 =>
    have hcall : ¬SameLetters "call".toList op.mnemonic.toList := by
      cases op with
      | push => decide
      | jump condition => cases condition <;> decide
    rw [operands_eq_valueFirst (callTable_find?_eq_none hcall hname) h]
    exact valueFirst_imm hwell hname h
  | regReg op r0 r1 =>
    obtain ⟨hop, hr0, hr1⟩ := hwell
    obtain ⟨rest, heq, hrest⟩ := operands_eq_registerFirst hr0 h trivial
    rw [heq, registerFirst_regReg hr1 hop hname hrest]
  | shrd r0 r1 r2 =>
    obtain ⟨hr0, hr1, hr2⟩ := hwell
    obtain ⟨rest, heq, hrest⟩ := operands_eq_registerFirst hr0 h trivial
    rw [heq, registerFirst_shrd hr1 hr2 hname hrest]
  | regImm op r0 v0 =>
    obtain ⟨hop, hr0⟩ := hwell
    obtain ⟨rest, heq, hrest⟩ := operands_eq_registerFirst hr0 h trivial
    rw [heq, registerFirst_regImm hop hname hrest]
  | regMem op r0 base hdisp =>
    obtain ⟨hop, hr0, hbase⟩ := hwell
    obtain ⟨rest, heq, hrest⟩ := operands_eq_registerFirst hr0 h trivial
    obtain ⟨rest', heq', hrest'⟩ := registerFirst_eq_registerMemory hrest
    rw [heq, heq', registerMemory_regMem hbase hop hdisp hname hrest']
  | lea r0 r1 r2 index v0 =>
    obtain ⟨hr0, hr1, hr2⟩ := hwell
    obtain ⟨rest, heq, hrest⟩ := operands_eq_registerFirst hr0 h trivial
    obtain ⟨rest', heq', hrest'⟩ := registerFirst_eq_registerMemory hrest
    rw [heq, heq', registerMemory_lea hr1 hr2 hname hrest']
  | jumpTable condition v0 r0 v1 =>
    obtain ⟨hop, hr0⟩ := hwell
    have hcall : ¬SameLetters "call".toList condition.mnemonic.toList := by
      cases condition <;> decide
    rw [operands_eq_valueFirst (callTable_find?_eq_none hcall hname) h]
    obtain ⟨rest, hvalue, hrest⟩ := value_eq symbols h trivial
    exact valueFirst_jumpTable hop hr0 hname hvalue hrest
  | mem op base hdisp =>
    obtain ⟨hop, hbase⟩ := hwell
    rw [operands_eq_memoryFirst h, memoryFirst_mem hbase hdisp hop hname h]
  | memReg op base r1 hdisp =>
    obtain ⟨hop, hbase, hr1⟩ := hwell
    rw [operands_eq_memoryFirst h, memoryFirst_memReg hbase hdisp hop hr1 hname h]
  | memImm op base v1 hdisp =>
    obtain ⟨hop, hbase⟩ := hwell
    rw [operands_eq_memoryFirst h, memoryFirst_memImm hbase hdisp hop hname h]

/-! ## What a line can be decoded as -/

theorem isSpelled_of_register? {reg : Reg} {rest : List Char}
    (h : register? text = some (reg, rest)) : reg.IsSpelled := by
  obtain ⟨key, _, _, hmem, -⟩ := register?_eq_some h
  exact ⟨key, hmem⟩

theorem isSpelled_of_register {reg : Reg} {rest : List Char}
    (h : register text = .ok (reg, rest)) : reg.IsSpelled := by
  unfold register at h
  split at h
  · next found hread =>
    cases h
    exact isSpelled_of_register? hread
  · cases h

theorem isSpelled_of_memory {mem : MemoryOperand} {rest : List Char}
    (h : memory symbols text = .ok (mem, rest)) : mem.base.IsSpelled := by
  obtain ⟨_, -, h⟩ := except_bind_eq_ok h
  obtain ⟨⟨base, _⟩, hbase, h⟩ := except_bind_eq_ok h
  obtain ⟨⟨disp, _⟩, -, h⟩ := except_bind_eq_ok h
  cases h
  exact isSpelled_of_register hbase

variable {instruction : Instruction}

theorem memoryFirst_wellFormed (h : memoryFirst name symbols text = .ok instruction) :
    instruction.WellFormed ∧ SameLetters instruction.mnemonic.toList name := by
  obtain ⟨⟨mem, rest⟩, hmem, h⟩ := except_bind_eq_ok h
  have hbase := isSpelled_of_memory hmem
  simp only at h
  split at h
  · obtain ⟨op, hlists, hname, rfl⟩ := of_select_bind WideOp.table_ordered h
    exact ⟨⟨hlists, hbase⟩, hname⟩
  · split at h
    · next r1 rest' hread =>
      obtain ⟨_, -, h⟩ := except_bind_eq_ok h
      obtain ⟨op, hlists, hname, rfl⟩ := of_select_bind StoreOp.table_ordered h
      exact ⟨⟨hlists, hbase, isSpelled_of_register? hread⟩, hname⟩
    · obtain ⟨⟨v1, _⟩, -, h⟩ := except_bind_eq_ok h
      obtain ⟨_, -, h⟩ := except_bind_eq_ok h
      obtain ⟨op, hlists, hname, rfl⟩ := of_select_bind StoreOp.table_ordered h
      exact ⟨⟨hlists, hbase⟩, hname⟩

theorem registerMemory_wellFormed {r0 : Reg} (hr0 : r0.IsSpelled)
    (h : registerMemory name r0 symbols text = .ok instruction) :
    instruction.WellFormed ∧ SameLetters instruction.mnemonic.toList name := by
  obtain ⟨_, -, h⟩ := except_bind_eq_ok h
  obtain ⟨⟨r1, rest⟩, hr1, h⟩ := except_bind_eq_ok h
  replace hr1 := isSpelled_of_register hr1
  simp only at h
  split at h
  · next r2 rest' hindex =>
    obtain ⟨⟨sign, _⟩, -, h⟩ := except_bind_eq_ok h
    obtain ⟨⟨v0, _⟩, -, h⟩ := except_bind_eq_ok h
    obtain ⟨_, -, h⟩ := except_bind_eq_ok h
    obtain ⟨_, -, h⟩ := except_bind_eq_ok h
    obtain ⟨_, -, hname, rfl⟩ := of_select_bind leaTable_ordered h
    have hr2 : r2.IsSpelled := by
      unfold index? at hindex
      split at hindex
      · cases hindex
      · exact isSpelled_of_register? hindex
    exact ⟨⟨hr0, hr1, hr2⟩, hname⟩
  · obtain ⟨⟨disp, _⟩, -, h⟩ := except_bind_eq_ok h
    obtain ⟨_, -, h⟩ := except_bind_eq_ok h
    obtain ⟨op, hlists, hname, rfl⟩ := of_select_bind LoadOp.table_ordered h
    exact ⟨⟨hlists, hr0, hr1⟩, hname⟩

theorem registerFirst_wellFormed {r0 : Reg} (hr0 : r0.IsSpelled)
    (h : registerFirst name r0 symbols text = .ok instruction) :
    instruction.WellFormed ∧ SameLetters instruction.mnemonic.toList name := by
  simp only [registerFirst] at h
  split at h
  · obtain ⟨op, hlists, hname, rfl⟩ := of_select_bind RegOp.table_ordered h
    exact ⟨⟨hlists, hr0⟩, hname⟩
  · split at h
    · next r1 rest hread =>
      have hr1 := isSpelled_of_register? hread
      split at h
      · obtain ⟨op, hlists, hname, rfl⟩ := of_select_bind PairOp.registerTable_ordered h
        exact ⟨⟨hlists, hr0, hr1⟩, hname⟩
      · obtain ⟨⟨r2, _⟩, hr2, h⟩ := except_bind_eq_ok h
        obtain ⟨_, -, h⟩ := except_bind_eq_ok h
        obtain ⟨_, -, hname, rfl⟩ := of_select_bind shrdTable_ordered h
        exact ⟨⟨hr0, hr1, isSpelled_of_register hr2⟩, hname⟩
    · split at h
      · exact registerMemory_wellFormed hr0 h
      · obtain ⟨⟨v0, _⟩, -, h⟩ := except_bind_eq_ok h
        obtain ⟨_, -, h⟩ := except_bind_eq_ok h
        obtain ⟨op, hlists, hname, rfl⟩ := of_select_bind PairOp.valueTable_ordered h
        exact ⟨⟨hlists, hr0⟩, hname⟩

theorem valueFirst_wellFormed (h : valueFirst name symbols text = .ok instruction) :
    instruction.WellFormed ∧ SameLetters instruction.mnemonic.toList name := by
  obtain ⟨⟨v0, rest⟩, -, h⟩ := except_bind_eq_ok h
  simp only at h
  split at h
  · obtain ⟨⟨r0, _⟩, hr0, h⟩ := except_bind_eq_ok h
    obtain ⟨_, -, h⟩ := except_bind_eq_ok h
    obtain ⟨⟨v1, _⟩, -, h⟩ := except_bind_eq_ok h
    obtain ⟨_, -, h⟩ := except_bind_eq_ok h
    obtain ⟨_, -, h⟩ := except_bind_eq_ok h
    obtain ⟨condition, hlists, hname, rfl⟩ := of_select_bind Condition.table_ordered h
    exact ⟨⟨hlists, isSpelled_of_register hr0⟩, hname⟩
  · obtain ⟨_, -, h⟩ := except_bind_eq_ok h
    obtain ⟨op, hlists, hname, rfl⟩ := of_select_bind ImmOp.table_ordered h
    exact ⟨hlists, hname⟩

theorem callTarget_wellFormed (hcall : (callTable.find? name).isSome = true)
    (hregister : register? text = none) (h : callTarget text = .ok instruction) :
    instruction.WellFormed ∧ SameLetters instruction.mnemonic.toList name := by
  unfold callTarget at h
  split at h
  · cases h
  · next target rest hread =>
    obtain ⟨_, -, h⟩ := except_bind_eq_ok h
    cases h
    obtain ⟨_, hfind⟩ := Option.isSome_iff_exists.1 hcall
    obtain ⟨-, hname⟩ := of_find? callTable_ordered hfind
    refine ⟨⟨?_, ?_⟩, hname⟩
    · rw [String.toList_ofList]
      exact isIdentifier_of_identifier? hread
    · rw [String.toList_ofList]
      exact (register?_eq_none_iff hread).1 hregister

theorem operands_wellFormed (h : operands name symbols text = .ok instruction) :
    instruction.WellFormed ∧ SameLetters instruction.mnemonic.toList name := by
  unfold operands at h
  split at h
  · obtain ⟨_, -, hname, rfl⟩ := of_select_bind retnTable_ordered h
    exact ⟨trivial, hname⟩
  · split at h
    · exact memoryFirst_wellFormed h
    · split at h
      · next r0 rest hread => exact registerFirst_wellFormed (isSpelled_of_register? hread) h
      · next hregister =>
        split at h
        · next hcall => exact callTarget_wellFormed hcall hregister h
        · exact valueFirst_wellFormed h

end Decoder

/-! ## Lines -/

/-- Every mnemonic is a word of letters. -/
theorem Instruction.isAlpha_mnemonic (instruction : Instruction) :
    instruction.mnemonic.toList ≠ [] ∧
      ∀ c ∈ instruction.mnemonic.toList, c.isAlpha = true := by
  have hcondition (condition : Condition) : condition.mnemonic.toList ≠ [] ∧
      ∀ c ∈ condition.mnemonic.toList, c.isAlpha = true := by
    cases condition <;> simp [Condition.mnemonic]
  cases instruction with
  | retn | call | shrd | lea => simp [mnemonic]
  | reg op => cases op with
    | jump condition => exact hcondition condition
    | _ => simp [mnemonic, RegOp.mnemonic]
  | imm op => cases op with
    | jump condition => exact hcondition condition
    | push => simp [mnemonic, ImmOp.mnemonic]
  | jumpTable condition => exact hcondition condition
  | regReg op | regImm op => cases op <;> simp [mnemonic, PairOp.mnemonic]
  | regMem op => cases op <;> simp [mnemonic, LoadOp.mnemonic]
  | mem op => cases op <;> simp [mnemonic, WideOp.mnemonic]
  | memReg op | memImm op => cases op <;> simp [mnemonic, StoreOp.mnemonic]

theorem mnemonic?_eq {name gap rest : List Char} (hne : name ≠ [])
    (hletters : ∀ c ∈ name, c.isAlpha = true) (hgap : ∀ c ∈ gap, isSpace c = true)
    (hrest : startsWith isSpace rest = false) (hsep : rest ≠ [] → gap ≠ []) :
    mnemonic? (name ++ (gap ++ rest)) = some (name, rest) := by
  have hstop : gap ++ rest = [] ∨ startsWith isSpace (gap ++ rest) = true := by
    cases gap with
    | nil => exact Or.inl (by simpa using hsep)
    | cons c gap => exact Or.inr (hgap c List.mem_cons_self)
  have hnext : startsWith Char.isAlpha (gap ++ rest) = false := by
    cases htext : gap ++ rest with
    | nil => rfl
    | cons c text =>
      rw [htext] at hstop
      have hspace : isSpace c = true := by simpa [startsWith] using hstop
      refine not_startsWith_of_imp (fun _ => continuesIdentifier_of_isAlpha) ?_
      exact not_continuesIdentifier_of_stop (Or.inl hspace)
  simp only [mnemonic?, takeWhile_run hletters hnext, dropWhile_run hletters hnext, if_neg hne,
    if_pos hstop, skipSpaces_run hgap hrest]

/-- The mnemonic that is read is the first word of the line. -/
theorem firstWord_eq_of_mnemonic? {line name rest : List Char}
    (h : mnemonic? line = some (name, rest)) : firstWord line = name := by
  simp only [mnemonic?] at h
  split at h
  · cases h
  · split at h
    · next hstop =>
      cases h
      have hletters : ∀ c ∈ line.takeWhile Char.isAlpha, (!isSpace c) = true := by
        intro c hc
        have halpha := List.all_eq_true.1 List.all_takeWhile c hc
        rw [not_isSpace_of_continuesIdentifier (continuesIdentifier_of_isAlpha halpha)]
        rfl
      have hnext : startsWith (fun c => !isSpace c) (line.dropWhile Char.isAlpha) = false := by
        cases hrest : line.dropWhile Char.isAlpha with
        | nil => rfl
        | cons c rest =>
          rw [hrest] at hstop
          simpa [startsWith] using hstop
      have hrun := takeWhile_run hletters hnext
      rwa [List.takeWhile_append_dropWhile] at hrun
    · cases h

/-- Every spelling of a well-formed instruction is decoded as that instruction, under
any symbols.  Whatever is decoded is well formed, and its mnemonic is the first word
of the line. -/
theorem decode_spelledBy :
    (∀ (instruction : Instruction) (line : List Char) (symbols : Symbols),
      instruction.WellFormed → instruction.SpelledBy line →
        decode symbols line = .ok instruction) ∧
    (∀ (symbols : Symbols) (line : List Char) (instruction : Instruction),
      decode symbols line = .ok instruction →
        instruction.WellFormed ∧
          SameLetters (firstWord line) instruction.mnemonic.toList) := by
  constructor
  · rintro instruction line symbols hwell
      ⟨tokens, name, gap, rest, htokens, hname, hgap, hsep, hspells, rfl⟩
    obtain ⟨hne, hletters⟩ := instruction.isAlpha_mnemonic
    have hmnemonic : mnemonic? (name ++ (gap ++ rest)) = some (name, rest) := by
      refine mnemonic?_eq (ne_nil_of_sameLetters hne hname)
        (all_isAlpha_of_sameLetters hletters hname) hgap hspells.not_startsWith_isSpace ?_
      intro hrest
      refine hsep ?_
      rintro rfl
      cases hspells
      exact hrest rfl
    rw [decode, hmnemonic]
    exact Decoder.operands_eq_ok hwell htokens hname hspells
  · intro symbols line instruction h
    unfold decode at h
    split at h
    · cases h
    · next name rest hmnemonic =>
      obtain ⟨hwell, hname⟩ := Decoder.operands_wellFormed h
      rw [firstWord_eq_of_mnemonic? hmnemonic]
      exact ⟨hwell, hname.symm⟩

/-- An address of three parts in mixed case, with a hexadecimal number. -/
def indexedLine : List Char :=
  "LeA\tEax , [ecx+ EDX*0fFH ]".toList

theorem decode_spelledBy_indexedLine :
    (Instruction.lea .eax .ecx .edx .mul 255).WellFormed ∧
      (Instruction.lea .eax .ecx .edx .mul 255).SpelledBy indexedLine ∧
      decode ⟨.empty, .empty, .new 16⟩ indexedLine = .ok (.lea .eax .ecx .edx .mul 255) ∧
      SameLetters (firstWord indexedLine) "lea".toList := by
  have hwell : (Instruction.lea .eax .ecx .edx .mul 255).WellFormed :=
    ⟨⟨"eax", by simp [Reg.spellings]⟩, ⟨"ecx", by simp [Reg.spellings]⟩,
      ⟨"edx", by simp [Reg.spellings]⟩⟩
  have hliteral : Literal 255 ('0' :: ['f', 'F'] ++ ['H']) :=
    .hexadecimal rfl (by simp [Text.isHexDigit]) (Or.inr rfl) rfl
  have hindex : Spells [.mark '*', .number 255, .mark ']'] "*0fFH ]".toList :=
    @Spells.cons _ _ ['*'] [] _ (.mark (by simp [marks])) (by simp [isSpace]) <|
    @Spells.cons _ _ _ [' '] _ (.number hliteral) (by simp [isSpace]) <|
    @Spells.cons _ _ [']'] [] _ (.mark (by simp [marks])) (by simp [isSpace]) .nil
  have hspells : Spells [.reg .eax, .mark ',', .mark '[', .reg .ecx, .mark '+', .reg .edx,
      .mark '*', .number 255, .mark ']'] "Eax , [ecx+ EDX*0fFH ]".toList :=
    @Spells.cons _ _ ['E', 'a', 'x'] [' '] _ (.reg (by decide +kernel)) (by simp [isSpace]) <|
    @Spells.cons _ _ [','] [' '] _ (.mark (by simp [marks])) (by simp [isSpace]) <|
    @Spells.cons _ _ ['['] [] _ (.mark (by simp [marks])) (by simp [isSpace]) <|
    @Spells.cons _ _ ['e', 'c', 'x'] [] _ (.reg (by decide +kernel)) (by simp [isSpace]) <|
    @Spells.cons _ _ ['+'] [' '] _ (.mark (by simp [marks])) (by simp [isSpace]) <|
    @Spells.cons _ _ ['E', 'D', 'X'] [] _ (.reg (by decide +kernel)) (by simp [isSpace]) hindex
  have hspelled : (Instruction.lea .eax .ecx .edx .mul 255).SpelledBy indexedLine :=
    ⟨_, "LeA".toList, ['\t'], _, .lea .eax .ecx .edx .mul 255, by decide +kernel,
      by simp [isSpace], by simp, hspells, by decide +kernel⟩
  have hdecode :=
    decode_spelledBy.1 _ _ ⟨.empty, .empty, .new 16⟩ hwell hspelled
  exact ⟨hwell, hspelled, hdecode, (decode_spelledBy.2 _ _ _ hdecode).2⟩

end X86Listing
