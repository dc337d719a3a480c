import X86Listing.Proofs.Instruction.Decoding
import X86Listing.Proofs.Machine.Instruction
import X86Listing.Proofs.Procedure.Table

/-!
# Jumps through a table

A jump `jmp ds:table[r*4]` reads its target from a table of code addresses.
`step_tableJump` says that it goes to the instruction behind the label that the
table lists at the index in `r`, whatever else is in the machine.

* `TableJump.decode_eq_ok` says what the line is decoded as.  The address of the
  table is a name behind a segment, which is tried after a number and a local.
* `step_jumpTable` is the jump itself, for any table in memory.
-/

namespace X86Listing

open Text (isSpace SameLetters)

/-! ## The line of the jump -/

/-- A line `jmp ds:label[reg*4]`. -/
def TableJump (label : List Char) (reg : Reg) (line : List Char) : Prop :=
  ∃ word gap segment gap' gap'' tail, SameLetters "jmp".toList word ∧
    (∀ c ∈ gap, isSpace c = true) ∧ gap ≠ [] ∧ SameLetters segment "ds".toList ∧
    (∀ c ∈ gap', isSpace c = true) ∧ (∀ c ∈ gap'', isSpace c = true) ∧
    Spells [.mark '[', .reg reg, .mark '*', .number 4, .mark ']'] tail ∧
    line = word ++ (gap ++ (segment ++ ':' :: (gap' ++ (label ++ (gap'' ++ tail)))))

section Segment

variable {segment rest : List Char} (h : SameLetters segment "ds".toList)
include h

/-- A segment name has two letters. -/
theorem eq_of_segment : ∃ c d, segment = [c, d] ∧ (c = 'd' ∨ c = 'D') ∧ (d = 's' ∨ d = 'S') := by
  obtain ⟨c, tail, rfl, hc, htail⟩ := List.map_eq_cons_iff.1 h
  obtain ⟨d, tail, rfl, hd, htail⟩ := List.map_eq_cons_iff.1 htail
  obtain rfl := List.map_eq_nil_iff.1 htail
  exact ⟨c, d, rfl, eq_or_eq_of_toLower 'd' 'D' rfl hc, eq_or_eq_of_toLower 's' 'S' rfl hd⟩

/-- The segment is no number, though it starts with a hexadecimal digit. -/
theorem number?_segment : number? (segment ++ ':' :: rest) = none := by
  obtain ⟨c, d, rfl, hc, hd⟩ := eq_of_segment h
  rcases hc with rfl | rfl <;> rcases hd with rfl | rfl <;> rfl

theorem register?_segment : register? (segment ++ ':' :: rest) = none := by
  have hletters : ∀ c ∈ segment, c.isAlpha = true :=
    all_isAlpha_of_sameLetters (by simp) h.symm
  have hnext : startsWith Char.isAlpha (':' :: rest) = false := rfl
  have hfind : Text.findIgnoreCase? Reg.spellings segment = none := by
    obtain ⟨c, d, rfl, hc, hd⟩ := eq_of_segment h
    rcases hc with rfl | rfl <;> rcases hd with rfl | rfl <;> decide +kernel
  simp only [register?, takeWhile_run hletters hnext, dropWhile_run hletters hnext, hfind]
  split <;> rfl

/-- A local that is called like the segment stops before the colon. -/
theorem local?_segment {symbols : Symbols} {value : UInt32} {left : List Char}
    (hlocal : symbols.local? (segment ++ ':' :: rest) = some (value, left)) :
    left = ':' :: rest := by
  have hletters : ∀ c ∈ segment, continuesIdentifier c = true := fun c hc =>
    continuesIdentifier_of_isAlpha (all_isAlpha_of_sameLetters (by simp) h.symm c hc)
  have hnext : startsWith continuesIdentifier (':' :: rest) = false := rfl
  have hskip : skipSpaces (':' :: rest) = ':' :: rest := rfl
  unfold Symbols.local? at hlocal
  split at hlocal
  · cases hlocal
  · next name left' hread =>
    have hleft : left' = ':' :: rest := by
      unfold identifier? at hread
      split at hread
      · rw [dropWhile_run hletters hnext, hskip] at hread
        cases hread
        rfl
      · cases hread
    split at hlocal
    · cases hlocal
    · cases hlocal
      exact hleft

end Segment

/-- The line of a jump through a table can only be decoded as that jump. -/
theorem TableJump.decode_eq_ok {label : List Char} {reg : Reg} {line : List Char}
    (h : TableJump label reg line) (hlabel : IsIdentifier label) (hreg : reg.IsSpelled)
    {symbols : Symbols} {instruction : Instruction}
    (hdecode : decode symbols line = .ok instruction) :
    ∃ address, symbols.data.address? (String.ofList label) = some address ∧
      instruction = .jumpTable .always address reg 4 := by
  obtain ⟨word, gap, segment, gap', gap'', tail, hword, hgap, hne, hsegment, hgap', hgap'',
    htail, rfl⟩ := h
  have hfirst (rest : List Char) :
      startsWith isSpace (segment ++ rest) = false ∧
        startsWith (· == '[') (segment ++ rest) = false ∧ segment ++ rest ≠ [] := by
    obtain ⟨c, d, rfl, hc, -⟩ := eq_of_segment hsegment
    rcases hc with rfl | rfl <;> exact ⟨rfl, rfl, by simp⟩
  obtain ⟨hspace, hbracket, hnil⟩ := hfirst (':' :: (gap' ++ (label ++ (gap'' ++ tail))))
  have hmnemonic := mnemonic?_eq (ne_nil_of_sameLetters (by simp) hword)
    (all_isAlpha_of_sameLetters (by simp) hword) hgap hspace fun _ => hne
  have hcall : callTable.find? word = none :=
    Decoder.callTable_find?_eq_none (by decide) hword
  rw [decode, hmnemonic] at hdecode
  simp only [Decoder.operands, if_neg hnil, hbracket, register?_segment hsegment, hcall] at hdecode
  replace hdecode : Decoder.valueFirst word symbols
      (segment ++ ':' :: (gap' ++ (label ++ (gap'' ++ tail)))) = .ok instruction := hdecode
  obtain ⟨⟨v0, rest⟩, hvalue, hjump⟩ := except_bind_eq_ok hdecode
  have hread := hvalue
  simp only [Decoder.value, Symbols.value?, number?_segment hsegment, Option.none_or] at hread
  split at hread
  · next found hfound =>
    cases hread
    rcases Option.or_eq_some_iff.1 hfound with hlocal | ⟨-, hoffset⟩
    · -- Behind the local nothing but the end of the line could follow.
      obtain rfl := local?_segment hsegment hlocal
      cases hjump
    · obtain ⟨rfl, haddress⟩ := Symbols.offset?_segment hlabel hgap'' (htail.atMark trivial)
        hsegment hgap' hoffset
      have hop : Condition.table.Lists .always := ⟨"jmp", by simp [Condition.table]⟩
      rw [Decoder.valueFirst_jumpTable hop hreg hword hvalue htail] at hdecode
      cases hdecode
      exact ⟨v0, haddress, rfl⟩
  · cases hread

/-! ## The jump -/

namespace Machine

variable {H : Host} {invoke : H.Function → Eval H Unit} {procedure : Procedure} {pc : Nat}
  {machine : Machine H}

/-- A jump through a table goes to the address that it finds in the table. -/
theorem step_jumpTable {address : UInt32} {reg : Reg} {target : UInt32}
    (h : procedure.instruction? pc = some (.jumpTable .always address reg 4))
    (hword : machine.data.loadWord? (address + machine.registers.value reg * 4) =
      some target) :
    step invoke procedure pc machine = jump procedure target machine := by
  have hload : loadWord (address + machine.registers.value reg * 4) machine =
      .ok target machine := by
    simp only [loadWord, wordAt?, bind, EStateM.bind, get_eq_ok, hword, Option.some_or]
    rfl
  simp only [step, h, execute, Condition.holds, if_pos, bind, EStateM.bind, get_eq_ok, hload]

/-- A jump through a table of labels goes to the instruction behind the label at the
index in its register.  `body` is the body of a procedure that was compiled with the
table, and `data'` the segment that the compile left.  If no instruction follows the
label, the jump faults with the address behind the last instruction.  The machine
stays as it was in both cases.  `hfit` says that the label has an address at all. -/
theorem step_tableJump {source : String} {capacity : Nat} {data data' : DataSegment}
    {body : List Line} {label name : List Char} {names : List (List Char)} {line : Line}
    {reg : Reg} {index : Nat}
    (hreach : data.Reachable capacity)
    (hcapacity : capacity ≤ codeBase.toNat - dataBase.toNat)
    (hcompile : X86Listing.compile source data = .ok (procedure, data'))
    (hbody : splitHeader? (Line.ofSource source) = some (procedure.name, body))
    (hlabel : IsIdentifier label) (hnew : data.chunk? (String.ofList label) = none)
    (htable : DeclaresTable (dataLines body) label names)
    (hnames : ∀ name ∈ names, ∃ index, LabelAt (outline .code body) name index)
    (hline : (codeLines body)[pc]? = some line) (hjump : TableJump label reg line.text)
    (hreg : reg.IsSpelled)
    (hbytes : ∀ chunk, data'.chunk? (String.ofList label) = some chunk →
      DataSegment.SameBytes chunk machine.data data')
    (hname : names[(machine.registers.value reg).toNat]? = some name)
    (hindex : LabelAt (outline .code body) name index)
    (hfit : index < 2 ^ 32 - codeBase.toNat) :
    step invoke procedure pc machine =
      if index < procedure.length then .ok (some index) machine
      else .error (.badJumpTarget (codeAddress procedure.length)) machine := by
  obtain ⟨body', hbody', -, hlabels, hassemble⟩ := compileInto_eq_ok (compile_eq_ok hcompile)
  obtain rfl : body = body' := by
    rw [hbody] at hbody'
    exact (Prod.mk.inj (Option.some.inj hbody')).2
  obtain ⟨⟨declarations, hrun⟩, hcode⟩ := assemble_eq_ok hassemble
  have haddresses : ∀ name ∈ names, ∃ value,
      procedure.labels.get? (String.ofList name) = some value := by
    intro name hmem
    obtain ⟨index, hindex⟩ := hnames name hmem
    rw [hlabels]
    exact ⟨_, resolve_survey_labels.2 ⟨index, hindex, rfl⟩⟩
  obtain ⟨values, chunk, hvalues, hchunk, hsize, hslice⟩ :=
    hrun.table hreach.sound htable hlabel hnew haddresses
  have hsound := hrun.sound hreach.sound
  -- The entry at the index is the address of the label.
  have hentry : values[(machine.registers.value reg).toNat]? = some (codeAddress index) := by
    have hmap := congrArg (·[(machine.registers.value reg).toNat]?) hvalues
    simp only [List.getElem?_map, hname, Option.map_some] at hmap
    rw [hlabels, resolve_survey_labels.2 ⟨index, hindex, rfl⟩] at hmap
    obtain ⟨value, hvalue, hsome⟩ := Option.map_eq_some_iff.1 hmap.symm
    rw [hvalue, Option.some.inj hsome]
  -- The instruction is the jump through that chunk.
  obtain ⟨instruction, hinstruction, hdecode⟩ : ∃ instruction,
      procedure.instruction? pc = some instruction ∧
        decode ⟨procedure.locals, procedure.labels, data'⟩ line.text = .ok instruction := by
    have hmap := congrArg (·[pc]?) hcode
    rw [codeLines] at hline
    simp only [List.getElem?_map, hline, Option.map_some] at hmap
    obtain ⟨instruction, hinstruction, hok⟩ := Option.map_eq_some_iff.1 hmap.symm
    exact ⟨instruction, by simpa [Procedure.instruction?] using hinstruction, hok.symm⟩
  obtain ⟨address, haddress, rfl⟩ := hjump.decode_eq_ok hlabel hreg hdecode
  have hword : machine.data.loadWord? (address + machine.registers.value reg * 4) =
      some (codeAddress index) := by
    obtain rfl : dataBase + UInt32.ofNat chunk.offset = address := by
      simpa [DataSegment.address?, hchunk] using haddress
    have hload := DataSegment.loadWord?_of_slice hsound hcapacity hchunk hsize hslice
      (hbytes chunk hchunk) hentry
    have hslot : UInt32.ofNat (chunk.offset + 4 * (machine.registers.value reg).toNat) =
        UInt32.ofNat chunk.offset + machine.registers.value reg * 4 := by
      rw [UInt32.ofNat_add, UInt32.ofNat_mul, UInt32.ofNat_toNat, UInt32.mul_comm]
      rfl
    rwa [hslot, ← UInt32.add_assoc] at hload
  rw [step_jumpTable hinstruction hword, jump_codeAddress hfit]
  have hlength : procedure.length = (codeLines body).length := by
    have hcount := congrArg List.length hcode
    rw [List.length_map, List.length_map] at hcount
    exact hcount.symm
  have hle : index ≤ (codeLines body).length := hindex.le_length
  split
  · rfl
  · obtain rfl : index = procedure.length := by omega
    rfl

/-- A listing with a table on two lines. -/
def caseListing : String :=
  "f proc near\n.data\nt dd offset b ,offset a\ndd offset a\n.code\njmp ds:t[ecx*4]\n" ++
    "a:\nretn\nb:\nf endp"

/-- The lines of the listing behind the header. -/
def caseBody : List Line :=
  [⟨2, ".data".toList⟩, ⟨3, "t dd offset b ,offset a".toList⟩, ⟨4, "dd offset a".toList⟩,
    ⟨5, ".code".toList⟩, ⟨6, "jmp ds:t[ecx*4]".toList⟩, ⟨7, "a:".toList⟩, ⟨8, "retn".toList⟩,
    ⟨9, "b:".toList⟩, ⟨10, "f endp".toList⟩]

/-- A machine with a data segment and 2 in `ecx`. -/
def caseMachine (data : DataSegment) : Machine ⟨Unit, Unit⟩ :=
  { build ⟨16, 4⟩ () with data, registers := RegisterFile.zero.set .ecx 2 }

theorem declaresTable_caseBody :
    DeclaresTable (dataLines caseBody) ['t'] [['b'], ['a'], ['a']] := by
  have ha : IsIdentifier ['a'] := ⟨rfl, by simp [continuesIdentifier]⟩
  have hb : IsIdentifier ['b'] := ⟨rfl, by simp [continuesIdentifier]⟩
  have hlines : dataLines caseBody =
      [] ++ ⟨3, "t dd offset b ,offset a".toList⟩ :: ([⟨4, "dd offset a".toList⟩] ++ []) := by
    decide +kernel
  have hlast : OffsetsSpelled [['a']] "offset a".toList :=
    @OffsetsSpelled.last "offset".toList [' '] ['a'] rfl (by simp [isSpace]) (by simp) ha
  have hlist : OffsetsSpelled [['b'], ['a']] "offset b ,offset a".toList :=
    @OffsetsSpelled.cons "offset".toList [' '] ['b'] [' '] [] _ _ rfl (by simp [isSpace])
      (by simp) hb (by simp [isSpace]) (by simp) hlast
  have hrow : TableRow [['b'], ['a']] "dd offset b ,offset a".toList :=
    ⟨"dd".toList, [' '], _, rfl, by simp [isSpace], by simp, hlist, by decide⟩
  have hmore : TableRow [['a']] "dd offset a".toList :=
    ⟨"dd".toList, [' '], _, rfl, by simp [isSpace], by simp, hlast, by decide⟩
  exact ⟨[], _, _, [], [' '], _, _, _, hlines, by simp, by decide, by simp [isSpace], by simp,
    hrow, .cons hmore .nil, rfl⟩

theorem tableJump_caseBody : TableJump ['t'] .ecx "jmp ds:t[ecx*4]".toList := by
  have htail : Spells [.mark '[', .reg .ecx, .mark '*', .number 4, .mark ']']
      "[ecx*4]".toList :=
    @Spells.cons _ _ ['['] [] _ (.mark (by simp [marks])) (by simp) <|
    @Spells.cons _ _ ['e', 'c', 'x'] [] _ (.reg (by decide +kernel)) (by simp) <|
    @Spells.cons _ _ ['*'] [] _ (.mark (by simp [marks])) (by simp) <|
    @Spells.cons _ _ ['4'] [] _ (.number (.decimal (by simp) (by simp) rfl)) (by simp) <|
    @Spells.cons _ _ [']'] [] _ (.mark (by simp [marks])) (by simp) .nil
  exact ⟨"jmp".toList, [' '], "ds".toList, [], [], _, rfl, by simp [isSpace], by simp, rfl,
    by simp, by simp, htail, by decide⟩

theorem labelAt_caseBody :
    LabelAt (outline .code caseBody) ['a'] 1 ∧ LabelAt (outline .code caseBody) ['b'] 2 :=
  ⟨⟨(outline .code caseBody).take 5, ⟨7, "a:".toList⟩, (outline .code caseBody).drop 6,
      by decide +kernel, by decide +kernel, by decide +kernel⟩,
    ⟨(outline .code caseBody).take 7, ⟨9, "b:".toList⟩, [], by decide +kernel, by simp,
      by decide +kernel⟩⟩

theorem step_tableJump_caseListing :
    ∃ procedure data', X86Listing.compile caseListing (.new 16) = .ok (procedure, data') ∧
      step (fun _ => pure ()) procedure 0 (caseMachine data') =
        .ok (some 1) (caseMachine data') := by
  have hok : ((X86Listing.compile caseListing (.new 16)).toOption.any fun result =>
      result.1.name == "f" && result.1.length == 2) = true := by decide +kernel
  cases hcompile : X86Listing.compile caseListing (.new 16) with
  | error e =>
    rw [hcompile] at hok
    cases hok
  | ok result =>
    obtain ⟨procedure, data'⟩ := result
    obtain ⟨hname, hlength⟩ : procedure.name = "f" ∧ procedure.length = 2 := by
      simpa [hcompile, Except.toOption] using hok
    have hbody : splitHeader? (Line.ofSource caseListing) = some (procedure.name, caseBody) := by
      rw [hname]
      decide +kernel
    obtain ⟨ha, hb⟩ := labelAt_caseBody
    have hnames : ∀ name ∈ [['b'], ['a'], ['a']],
        ∃ index, LabelAt (outline .code caseBody) name index := by
      simp only [List.forall_mem_cons]
      exact ⟨⟨2, hb⟩, ⟨1, ha⟩, ⟨1, ha⟩, by simp⟩
    have hline : (codeLines caseBody)[0]? = some ⟨6, "jmp ds:t[ecx*4]".toList⟩ := by
      decide +kernel
    have hlabel : IsIdentifier ['t'] := ⟨rfl, by simp [continuesIdentifier]⟩
    have hstep : step (fun _ => pure ()) procedure 0 (caseMachine data') =
        if 1 < procedure.length then .ok (some 1) (caseMachine data')
        else .error (.badJumpTarget (codeAddress procedure.length)) (caseMachine data') :=
      step_tableJump .new (by decide +kernel) hcompile hbody hlabel rfl declaresTable_caseBody
        hnames hline tableJump_caseBody ⟨"ecx", by simp [Reg.spellings]⟩ (fun _ _ _ _ => rfl)
        rfl ha (by decide +kernel)
    refine ⟨procedure, data', rfl, ?_⟩
    rw [hstep, hlength]
    rfl

end Machine

end X86Listing
