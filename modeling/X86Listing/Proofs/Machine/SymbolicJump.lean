import X86Listing.Proofs.Instruction.LabelOperand
import X86Listing.Proofs.Machine.Instruction
import X86Listing.Proofs.Procedure.Assembly
import X86Listing.Proofs.Register.File

/-!
# Jumps to labels

A label is a line of the listing, and a jump takes its target from the symbols of the
procedure, as a code address that is turned back into an index when the jump is taken.
`step_symbolicJump` says that this leads to the instruction behind the last line of the
label, for a jump that names the label and for a jump to a register that was loaded with
it.

* `offset?_codeLabel` resolves the name, whatever the data segment calls by it.
* `step_shortJump` and `steps_offsetLoad` are the two kinds of jump.
-/

namespace X86Listing

open Text (isSpace SameLetters)

/-- A code label hides a data label of the same name. -/
theorem Symbols.address?_codeLabel {locals labels : NameMap UInt32} {name : String}
    {address : UInt32} (h : labels.get? name = some address) (data : DataSegment) :
    Symbols.address? ⟨locals, labels, data⟩ none name = some address := by
  simp only [Symbols.address?, h, Option.some_or]

/-- No listing can name the flags. -/
theorem Reg.IsSpelled.slot_ne_eflags {reg : Reg} (h : reg.IsSpelled) :
    reg.slot ≠ Reg.eflags.slot := by
  obtain ⟨name, hmem⟩ := h
  have hall : ∀ entry ∈ Reg.spellings.toList, entry.2.slot ≠ Reg.eflags.slot := by
    decide +kernel
  exact hall (name, reg) hmem.val

/-- A line `jcc reg` is decoded as that jump. -/
theorem decode_regJump {symbols : Symbols} {condition : Condition} {reg : Reg}
    {line : List Char} (hreg : reg.IsSpelled)
    (h : (Instruction.reg (.jump condition) reg).SpelledBy line) :
    decode symbols line = .ok (.reg (.jump condition) reg) := by
  obtain ⟨tokens, word, gap, rest, htokens, hword, hgap, hsep, hspells, rfl⟩ := h
  obtain ⟨hne, hletters⟩ := condition.isAlpha_mnemonic
  have hop : RegOp.table.Lists (.jump condition) := by
    cases condition <;> simp [Mnemonics.Lists, RegOp.table]
  have htokensne : tokens ≠ [] := by
    cases htokens
    simp
  have hmnemonic := mnemonic?_eq (ne_nil_of_sameLetters hne hword)
    (all_isAlpha_of_sameLetters hletters hword) hgap hspells.not_startsWith_isSpace
    fun _ => hsep htokensne
  rw [decode, hmnemonic]
  exact Decoder.operands_eq_ok ⟨hop, hreg⟩ htokens hword hspells

namespace Machine

variable {H : Host} {invoke : H.Function → Eval H Unit} {procedure : Procedure} {pc index : Nat}
  {machine : Machine H} {source : String} {data data' : DataSegment} {body : List Line}
  {name : List Char} {line line' : Line} {condition : Condition} {reg : Reg}

section Compiled

variable (hcompile : X86Listing.compile source data = .ok (procedure, data'))
  (hbody : splitHeader? (Line.ofSource source) = some (procedure.name, body))
  (hfit : (codeLines body).length < 2 ^ 32 - codeBase.toNat) (hname : IsIdentifier name)
  (hindex : LabelAt (outline .code body) name index)
include hcompile hbody hindex

/-- The name of a code label stands for its address, whatever is in the data segment. -/
theorem address?_codeLabel (segment : DataSegment) :
    Symbols.address? ⟨procedure.locals, procedure.labels, segment⟩ none (String.ofList name) =
      some (codeAddress index) := by
  obtain ⟨-, -, hlabels⟩ := compile_codeLines hcompile hbody
  exact Symbols.address?_codeLabel (hlabels name index hindex) segment

include hname

theorem offset?_codeLabel (segment : DataSegment) :
    Symbols.offset? ⟨procedure.locals, procedure.labels, segment⟩ name =
      some (codeAddress index, []) :=
  Symbols.offset?_label hname (address?_codeLabel hcompile hbody hindex segment)

omit hname
include hfit

theorem index_le_length :
    index ≤ procedure.length ∧ procedure.length < 2 ^ 32 - codeBase.toNat := by
  obtain ⟨hlength, -, -⟩ := compile_codeLines hcompile hbody
  rw [hlength]
  exact ⟨hindex.le_length, hfit⟩

include hname

/-- A jump that names a label. -/
theorem step_shortJump (hline : (codeLines body)[pc]? = some line)
    (hjump : ShortJump condition name line.text) :
    step invoke procedure pc machine = jumpResult procedure condition pc index machine := by
  obtain ⟨-, hcode, -⟩ := compile_codeLines hcompile hbody
  obtain ⟨hle, hlength⟩ := index_le_length hcompile hbody hfit hindex
  obtain ⟨instruction, hinstruction, hdecode⟩ := hcode pc line hline
  obtain rfl := hjump.decode_eq_ok hname (address?_codeLabel hcompile hbody hindex data') hdecode
  exact step_immJump_label hle hlength hinstruction

/-- A register is loaded with the address of a label, and a jump goes to the register. -/
theorem steps_offsetLoad (hline : (codeLines body)[pc]? = some line)
    (hload : OffsetLoad reg name line.text)
    (hline' : (codeLines body)[pc + 1]? = some line')
    (hjump : (Instruction.reg (.jump condition) reg).SpelledBy line'.text)
    (hreg : reg.IsSpelled) (hview : reg.view = .full32) :
    step invoke procedure pc machine = .ok (some (pc + 1))
        { machine with registers := machine.registers.set reg (codeAddress index) } ∧
      step invoke procedure (pc + 1)
          { machine with registers := machine.registers.set reg (codeAddress index) } =
        jumpResult procedure condition (pc + 1) index
          { machine with registers := machine.registers.set reg (codeAddress index) } := by
  obtain ⟨-, hcode, -⟩ := compile_codeLines hcompile hbody
  obtain ⟨hle, hlength⟩ := index_le_length hcompile hbody hfit hindex
  obtain ⟨instruction, hinstruction, hdecode⟩ := hcode pc line hline
  obtain ⟨instruction', hinstruction', hdecode'⟩ := hcode (pc + 1) line' hline'
  rw [hload.decode_eq hname hreg (address?_codeLabel hcompile hbody hindex data')] at hdecode
  rw [decode_regJump hreg hjump] at hdecode'
  cases hdecode
  cases hdecode'
  exact ⟨step_regImm hinstruction,
    step_regJump_label hle hlength hinstruction' (RegisterFile.value_set_self hview)⟩

end Compiled

/-- A jump to a label goes to the instruction behind the last line of the label, if the
condition is met, and to the next instruction otherwise.  It faults if no instruction stands
behind the label, and it never changes the machine.  The label is named behind the word
`short`, or its address is loaded into a register before; the load leaves the flags.  Data
of the same name does not matter.  `hfit` says that every instruction has an address. -/
theorem step_symbolicJump {source : String} {data data' : DataSegment}
    {procedure : Procedure} {body : List Line} {name : List Char} {index : Nat}
    (hcompile : X86Listing.compile source data = .ok (procedure, data'))
    (hbody : splitHeader? (Line.ofSource source) = some (procedure.name, body))
    (hfit : (codeLines body).length < 2 ^ 32 - codeBase.toNat) (hname : IsIdentifier name)
    (hindex : LabelAt (outline .code body) name index) (invoke : H.Function → Eval H Unit) :
    (∀ (pc : Nat) (line : Line) (condition : Condition) (machine : Machine H),
      (codeLines body)[pc]? = some line → ShortJump condition name line.text →
        step invoke procedure pc machine = jumpResult procedure condition pc index machine) ∧
      (∀ (pc : Nat) (line line' : Line) (condition : Condition) (reg : Reg)
          (machine : Machine H), reg.IsSpelled → reg.view = .full32 →
        (codeLines body)[pc]? = some line → OffsetLoad reg name line.text →
        (codeLines body)[pc + 1]? = some line' →
        (Instruction.reg (.jump condition) reg).SpelledBy line'.text →
          ∃ loaded, loaded =
              { machine with registers := machine.registers.set reg (codeAddress index) } ∧
            loaded.registers.flags = machine.registers.flags ∧
            step invoke procedure pc machine = .ok (some (pc + 1)) loaded ∧
            step invoke procedure (pc + 1) loaded =
              jumpResult procedure condition (pc + 1) index loaded) ∧
      ∀ segment : DataSegment,
        Symbols.offset? ⟨procedure.locals, procedure.labels, segment⟩ name =
          some (codeAddress index, []) := by
  refine ⟨?_, ?_, offset?_codeLabel hcompile hbody hname hindex⟩
  · intro pc line condition machine hline hjump
    exact step_shortJump hcompile hbody hfit hname hindex hline hjump
  · intro pc line line' condition reg machine hreg hview hline hload hline' hjump
    obtain ⟨hfirst, hsecond⟩ := steps_offsetLoad hcompile hbody hfit hname hindex hline hload
      hline' hjump hreg hview
    exact ⟨_, rfl, RegisterFile.flags_set hreg.slot_ne_eflags, hfirst, hsecond⟩

/-- A listing with a label on two lines, and a label that is also called like data and has
no instruction behind it. -/
def labelListing : String :=
  "f proc near\n.data\nb db 1\n.code\na:\njnz short b\nmov ecx, offset a\njmp ecx\n" ++
    "a:\nretn\nb:\nf endp"

/-- The lines of the listing behind the header. -/
def labelBody : List Line :=
  [⟨2, ".data".toList⟩, ⟨3, "b db 1".toList⟩, ⟨4, ".code".toList⟩, ⟨5, "a:".toList⟩,
    ⟨6, "jnz short b".toList⟩, ⟨7, "mov ecx, offset a".toList⟩, ⟨8, "jmp ecx".toList⟩,
    ⟨9, "a:".toList⟩, ⟨10, "retn".toList⟩, ⟨11, "b:".toList⟩, ⟨12, "f endp".toList⟩]

theorem labelAt_labelBody :
    LabelAt (outline .code labelBody) ['a'] 3 ∧ LabelAt (outline .code labelBody) ['b'] 4 :=
  ⟨⟨(outline .code labelBody).take 7, ⟨9, "a:".toList⟩, (outline .code labelBody).drop 8,
      by decide +kernel, by decide +kernel, by decide +kernel⟩,
    ⟨(outline .code labelBody).take 9, ⟨11, "b:".toList⟩, [], by decide +kernel, by simp,
      by decide +kernel⟩⟩

theorem lines_labelBody :
    ShortJump .notZero ['b'] "jnz short b".toList ∧
      OffsetLoad .ecx ['a'] "mov ecx, offset a".toList ∧
      (Instruction.reg (.jump .always) .ecx).SpelledBy "jmp ecx".toList := by
  have htail : Spells [.reg .ecx] "ecx".toList :=
    @Spells.cons _ _ ['e', 'c', 'x'] [] _ (.reg (by decide +kernel)) (by simp) .nil
  refine ⟨?_, ?_, ?_⟩
  · exact ⟨"jnz".toList, [' '], "short".toList, [' '], rfl, by simp [isSpace], by simp, rfl,
      by simp [isSpace], by simp, rfl⟩
  · exact ⟨"mov".toList, [' '], "ecx".toList, [',', ' '], "offset".toList, [' '], rfl,
      by simp [isSpace], by simp, by decide +kernel, by simp [isSpace], by simp, rfl,
      by simp [isSpace], by simp, rfl⟩
  · exact ⟨_, "jmp".toList, [' '], _, .reg _ _, rfl, by simp [isSpace], by simp, htail, rfl⟩

/-- A machine whose flags say that the last operands differed. -/
def labelMachine : Machine ⟨Unit, Unit⟩ :=
  build ⟨16, 4⟩ ()

theorem step_symbolicJump_labelListing :
    ∃ procedure data', X86Listing.compile labelListing (.new 16) = .ok (procedure, data') ∧
      step (fun _ => pure ()) procedure 0 labelMachine =
        .error (.badJumpTarget (codeAddress 4)) labelMachine ∧
      ∃ loaded, step (fun _ => pure ()) procedure 1 labelMachine = .ok (some 2) loaded ∧
        step (fun _ => pure ()) procedure 2 loaded = .ok (some 3) loaded := by
  have hok : ((X86Listing.compile labelListing (.new 16)).toOption.any fun result =>
      result.1.name == "f" && result.1.length == 4) = true := by decide +kernel
  cases hcompile : X86Listing.compile labelListing (.new 16) with
  | error e =>
    rw [hcompile] at hok
    cases hok
  | ok result =>
    obtain ⟨procedure, data'⟩ := result
    obtain ⟨hname, hlength⟩ : procedure.name = "f" ∧ procedure.length = 4 := by
      simpa [hcompile, Except.toOption] using hok
    have hbody : splitHeader? (Line.ofSource labelListing) =
        some (procedure.name, labelBody) := by
      rw [hname]
      decide +kernel
    have hfit : (codeLines labelBody).length < 2 ^ 32 - codeBase.toNat := by decide +kernel
    have ha : IsIdentifier ['a'] := ⟨rfl, by simp [continuesIdentifier]⟩
    have hb : IsIdentifier ['b'] := ⟨rfl, by simp [continuesIdentifier]⟩
    obtain ⟨hlabelA, hlabelB⟩ := labelAt_labelBody
    obtain ⟨hshort, hload, hjump⟩ := lines_labelBody
    have hnames := step_symbolicJump (H := ⟨Unit, Unit⟩) hcompile hbody hfit hb hlabelB
      fun _ => pure ()
    have hloads := step_symbolicJump (H := ⟨Unit, Unit⟩) hcompile hbody hfit ha hlabelA
      fun _ => pure ()
    have hline₀ : (codeLines labelBody)[0]? = some ⟨6, "jnz short b".toList⟩ := by
      decide +kernel
    have hline₁ : (codeLines labelBody)[1]? = some ⟨7, "mov ecx, offset a".toList⟩ := by
      decide +kernel
    have hline₂ : (codeLines labelBody)[2]? = some ⟨8, "jmp ecx".toList⟩ := by decide +kernel
    obtain ⟨loaded, -, -, hfirst, hsecond⟩ := hloads.2.1 1 _ _ .always .ecx labelMachine
      ⟨"ecx", by simp [Reg.spellings]⟩ rfl hline₁ hload hline₂ hjump
    refine ⟨procedure, data', rfl, ?_, loaded, hfirst, ?_⟩
    · rw [hnames.1 0 _ .notZero labelMachine hline₀ hshort, jumpResult, hlength]
      rfl
    · rw [hsecond, jumpResult, hlength]
      rfl

end Machine

end X86Listing
