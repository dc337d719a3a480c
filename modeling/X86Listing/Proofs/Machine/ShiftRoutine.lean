import X86Listing.Proofs.Machine.Arithmetic
import X86Listing.Proofs.Machine.Budget
import X86Listing.Proofs.Procedure.Assembly
import X86Listing.Proofs.Register.File

/-!
# A procedure that shifts a pair of registers

`shiftListing` is the listing of a procedure that shifts the number in `edx:eax` right by
the number in `cl`, as a disassembler prints it.  `run_shiftListing` says that it compiles
and does what it is for, from every machine whose stack has room for the return address.

* `compileInto_shiftListing` is the compile, into any data segment.
* `Shifted` is what the procedure is for, in terms of the registers before and after it.
  There are three ways through the code, by the size of the count, and one lemma for
  each (`steps_ofPart`, `steps_ofWord`, `steps_ofPair`).
* `endsAfter_of_steps` adds the push of the return address and the return.
-/

namespace X86Listing

/-! ## The listing -/

/-- The listing of the procedure. -/
def shiftListing : String :=
  "\n        ; ...\nsub_6B2B40\tproc near\t\t; CODE XREF: sub_6B2B40+E83p\n" ++
    "                    ; sub_526E70+3C7Ap ...\n        cmp\tcl, 40h\n" ++
    "        jnb\tshort loc_6B2B5A\n        cmp\tcl, 20h\n        jnb\tshort loc_6B2B50\n" ++
    "        shrd\teax, edx, cl\n        shr\tedx, cl\n        retn\n" ++
    "; ---------------------------------------------------------------------------\n\n" ++
    "loc_6B2B50:\t\t\t\t; CODE XREF: sub_6B2B40+8j\n        mov\teax, edx\n" ++
    "        xor\tedx, edx\n        and\tcl, 1Fh\n        shr\teax, cl\n        retn\n" ++
    "; ---------------------------------------------------------------------------\n\n" ++
    "loc_6B2B5A:\t\t\t\t; CODE XREF: sub_6B2B40+3j\n        xor\teax, eax\n" ++
    "        xor\tedx, edx\n        retn\nsub_6B2B40\tendp\n"

/-- The lines of the listing behind the header. -/
def shiftBody : List Line :=
  [⟨5, "cmp cl, 40h".toList⟩, ⟨6, "jnb short loc_6B2B5A".toList⟩, ⟨7, "cmp cl, 20h".toList⟩,
    ⟨8, "jnb short loc_6B2B50".toList⟩, ⟨9, "shrd eax, edx, cl".toList⟩,
    ⟨10, "shr edx, cl".toList⟩, ⟨11, "retn".toList⟩, ⟨14, "loc_6B2B50:".toList⟩,
    ⟨15, "mov eax, edx".toList⟩, ⟨16, "xor edx, edx".toList⟩, ⟨17, "and cl, 1Fh".toList⟩,
    ⟨18, "shr eax, cl".toList⟩, ⟨19, "retn".toList⟩, ⟨22, "loc_6B2B5A:".toList⟩,
    ⟨23, "xor eax, eax".toList⟩, ⟨24, "xor edx, edx".toList⟩, ⟨25, "retn".toList⟩,
    ⟨26, "sub_6B2B40 endp".toList⟩]

/-- The instructions of the listing. -/
def shiftInstructions : List Instruction :=
  [.regImm .cmp .cl 0x40, .imm (.jump .notBelow) (codeAddress 12),
    .regImm .cmp .cl 0x20, .imm (.jump .notBelow) (codeAddress 7),
    .shrd .eax .edx .cl, .regReg .shr .edx .cl, .retn,
    .regReg .mov .eax .edx, .regReg .xor .edx .edx, .regImm .and .cl 0x1f,
    .regReg .shr .eax .cl, .retn,
    .regReg .xor .eax .eax, .regReg .xor .edx .edx, .retn]

/-- The procedure of the listing. -/
def shiftProcedure : Procedure :=
  ⟨"sub_6B2B40", (survey shiftBody).locals, Labels.resolve (survey shiftBody).labels,
    shiftInstructions.toArray⟩

/-- The listing compiles into any data segment and adds nothing to it. -/
theorem compileInto_shiftListing (data : DataSegment) :
    compileInto shiftListing data = .ok shiftProcedure data := by
  have hheader : splitHeader? (Line.ofSource shiftListing) = some ("sub_6B2B40", shiftBody) := by
    -- The kernel reads a long text faster as a list of characters.
    unfold Line.ofSource shiftListing
    simp only [String.toList_append, String.reduceToList]
    decide +kernel
  have hclosed : (survey shiftBody).closed = true := by decide +kernel
  have hdata : dataLines shiftBody = [] := by decide +kernel
  have hcode : (codeLines shiftBody).map (fun line =>
      decode ⟨(survey shiftBody).locals, Labels.resolve (survey shiftBody).labels, .new 0⟩
        line.text) = shiftInstructions.map .ok := by decide +kernel
  exact compileInto_of_decodes hheader hclosed hdata hcode (by decide) data

/-! ## What the procedure is for -/

namespace RegisterFile

/-- The number in `edx:eax` has been shifted right by the number in `cl`, and the registers
that a procedure has to keep are as before. -/
structure Shifted (before after : RegisterFile) : Prop where
  pair_eq : after.pair =
    if (before.value .cl).toNat < 64 then before.pair >>> (before.value .cl).toNat else 0
  esp_eq : after.esp = before.esp
  kept : ∀ reg ∈ [Reg.ebx, .ebp, .esi, .edi], after.value reg = before.value reg

/-- The stack top that a return address was pushed to does not show behind the return. -/
theorem Shifted.of_setEsp {before after : RegisterFile} {address : UInt32}
    (h : Shifted (before.setEsp address) after) :
    Shifted before (after.setEsp before.esp) := by
  have hpair : ∀ (file : RegisterFile) (address : UInt32),
      (file.setEsp address).pair = file.pair := by
    intro file address
    rw [pair, value_setEsp (by decide), value_setEsp (by decide), pair]
  have hne : ∀ reg ∈ [Reg.ebx, .ebp, .esi, .edi], Reg.esp.slot ≠ reg.slot := by decide
  refine ⟨?_, esp_setEsp, ?_⟩
  · rw [hpair, h.pair_eq, hpair, value_setEsp (by decide)]
  · intro reg hreg
    rw [value_setEsp (hne reg hreg), h.kept reg hreg, value_setEsp (hne reg hreg)]

/-- The procedure writes to none of the registers that it has to keep. -/
theorem slot_ne_of_kept {reg : Reg} (h : reg ∈ [Reg.ebx, .ebp, .esi, .edi]) :
    Reg.eax.slot ≠ reg.slot ∧ Reg.cl.slot ≠ reg.slot ∧ Reg.edx.slot ≠ reg.slot ∧
      Reg.eflags.slot ≠ reg.slot := by
  revert reg
  decide

end RegisterFile

namespace Machine

open RegisterFile

variable {H : Host} {invoke : H.Function → Eval H Unit} {machine : Machine H}

/-! ## The ways through the code -/

section CompareJump

variable {procedure : Procedure} {pc index : Nat} {reg : Reg} {value : UInt32}
  (hcompare : procedure.instruction? pc = some (.regImm .cmp reg value))
  (hjump : procedure.instruction? (pc + 1) = some (.imm (.jump .notBelow) (codeAddress index)))
  (hpc : pc + 1 < procedure.length) (hindex : index < procedure.length)
  (hlength : procedure.length ≤ 2 ^ 32 - codeBase.toNat)
include hcompare hjump hpc hindex hlength

/-- A comparison with a value, and a jump unless the register is below it. -/
theorem steps_compareJump :
    Steps invoke procedure 2 (some pc) machine
      (some (if value ≤ machine.registers.value reg then index else pc + 2))
      { machine with registers :=
        machine.registers.setFlags (compareFlags (machine.registers.value reg) value) } := by
  have hflags : (machine.registers.setFlags
      (compareFlags (machine.registers.value reg) value)).flags =
      compareFlags (machine.registers.value reg) value := flags_setFlags
  refine .cons (Nat.lt_of_succ_lt hpc) (step_regImm hcompare) (.cons hpc ?_ (.refl ..))
  rw [step_immJump hjump hindex hlength]
  show EStateM.Result.ok (some (if Condition.notBelow.holds (RegisterFile.flags
    (machine.registers.setFlags _)) = true then index else pc + 1 + 1)) _ = _
  rw [hflags, holds_compareFlags]
  simp only [decide_eq_true_eq]
  rfl

theorem steps_taken (hle : value.toNat ≤ (machine.registers.value reg).toNat) :
    Steps invoke procedure 2 (some pc) machine (some index)
      { machine with registers :=
        machine.registers.setFlags (compareFlags (machine.registers.value reg) value) } := by
  have hsteps : Steps invoke procedure 2 (some pc) machine _ _ :=
    steps_compareJump hcompare hjump hpc hindex hlength
  rwa [if_pos (UInt32.le_iff_toNat_le.2 hle)] at hsteps

theorem steps_passed (hlt : (machine.registers.value reg).toNat < value.toNat) :
    Steps invoke procedure 2 (some pc) machine (some (pc + 2))
      { machine with registers :=
        machine.registers.setFlags (compareFlags (machine.registers.value reg) value) } := by
  have hsteps : Steps invoke procedure 2 (some pc) machine _ _ :=
    steps_compareJump hcompare hjump hpc hindex hlength
  rwa [if_neg (UInt32.not_le.2 (UInt32.lt_iff_toNat_lt.2 hlt))] at hsteps

end CompareJump

/-- A count of at least the size of the pair leaves nothing. -/
theorem steps_ofPair (h : 64 ≤ (machine.registers.value .cl).toNat) :
    ∃ after, Shifted machine.registers after ∧
      Steps invoke shiftProcedure 4 (some 0) machine (some 14)
        { machine with registers := after } := by
  let flagged := machine.registers.setFlags (compareFlags (machine.registers.value .cl) 0x40)
  have hjump : Steps invoke shiftProcedure 2 (some 0) machine (some 12)
      { machine with registers := flagged } :=
    steps_taken rfl rfl (by decide) (by decide) (by decide) h
  let low := flagged.set .eax (flagged.value .eax ^^^ flagged.value .eax)
  let after := low.set .edx (low.value .edx ^^^ low.value .edx)
  have hbody : Steps invoke shiftProcedure 2 (some 12) { machine with registers := flagged }
      (some 14) { machine with registers := after } :=
    .cons (by decide) (step_regReg rfl) (.cons (by decide) (step_regReg rfl) (.refl ..))
  have heax : after.value .eax = 0 := by
    rw [value_set_of_ne (by decide), value_set_self rfl, UInt32.xor_self]
  have hedx : after.value .edx = 0 := by
    rw [value_set_self rfl, UInt32.xor_self]
  refine ⟨after, ⟨?_, ?_, ?_⟩, hjump.trans hbody⟩
  · rw [if_neg (Nat.not_lt.2 h), pair, heax, hedx]
    rfl
  · rw [esp_set (by decide), esp_set (by decide), esp_setFlags]
  · intro reg hreg
    obtain ⟨heax, -, hedx, hflags⟩ := slot_ne_of_kept hreg
    rw [value_set_of_ne hedx, value_set_of_ne heax, value_setFlags hflags]

/-- A smaller count passes the first jump, and only the flags have changed then. -/
theorem steps_firstPassed (invoke : H.Function → Eval H Unit)
    (h : (machine.registers.value .cl).toNat < 64) :
    ∃ flags, Steps invoke shiftProcedure 2 (some 0) machine (some 2)
      { machine with registers := machine.registers.setFlags flags } :=
  ⟨_, steps_passed rfl rfl (by decide) (by decide) (by decide) h⟩

/-- A count of at least the size of a word leaves bits of the high word only. -/
theorem steps_ofWord (h : 32 ≤ (machine.registers.value .cl).toNat)
    (hlt : (machine.registers.value .cl).toNat < 64) :
    ∃ after, Shifted machine.registers after ∧
      Steps invoke shiftProcedure 8 (some 0) machine (some 11)
        { machine with registers := after } := by
  obtain ⟨flags, hfirst⟩ := steps_firstPassed invoke hlt
  let first := machine.registers.setFlags flags
  have hcl : first.value .cl = machine.registers.value .cl := value_setFlags (by decide)
  let flagged := first.setFlags (compareFlags (first.value .cl) 0x20)
  have hjump : Steps invoke shiftProcedure 2 (some 2) { machine with registers := first }
      (some 7) { machine with registers := flagged } :=
    steps_taken rfl rfl (by decide) (by decide) (by decide) (by rw [hcl]; exact h)
  let moved := flagged.set .eax (flagged.value .edx)
  let cleared := moved.set .edx (moved.value .edx ^^^ moved.value .edx)
  let masked := cleared.set .cl (cleared.value .cl &&& 0x1f)
  let after := masked.set .eax (masked.value .eax >>> (masked.value .cl &&& 31))
  have hbody : Steps invoke shiftProcedure 4 (some 7) { machine with registers := flagged }
      (some 11) { machine with registers := after } :=
    .cons (by decide) (step_regReg rfl) (.cons (by decide) (step_regReg rfl)
      (.cons (by decide) (step_regImm rfl) (.cons (by decide) (step_regReg rfl) (.refl ..))))
  have hedx : after.value .edx = 0 := by
    rw [value_set_of_ne (by decide), value_set_of_ne (by decide), value_set_self rfl,
      UInt32.xor_self]
  have hcount : (masked.value .cl).toNat % 32 = (machine.registers.value .cl).toNat - 32 := by
    have hmask : cleared.value .cl = machine.registers.value .cl := by
      rw [value_set_of_ne (by decide), value_set_of_ne (by decide), value_setFlags (by decide),
        hcl]
    rw [value_set_low8 rfl, hmask, UInt32.toNat_and, toNat_and_31]
    have hbyte := Nat.and_two_pow_sub_one_eq_mod ((machine.registers.value .cl).toNat % 32) 8
    show ((machine.registers.value .cl).toNat % 32 &&& (2 ^ 8 - 1)) % 32 = _
    omega
  have heax : (after.value .eax).toNat =
      (machine.registers.value .edx).toNat / 2 ^ ((machine.registers.value .cl).toNat - 32) := by
    have hmoved : masked.value .eax = machine.registers.value .edx := by
      rw [value_set_of_ne (by decide), value_set_of_ne (by decide), value_set_self rfl,
        value_setFlags (by decide), value_setFlags (by decide)]
    rw [value_set_self rfl, toNat_shiftRight_and_31, hcount, hmoved]
  refine ⟨after, ⟨?_, ?_, ?_⟩, (hfirst.trans hjump).trans hbody⟩
  · rw [if_pos hlt, pair, pair, hedx, heax, pair_shiftRight_of_le _ _ h]
    exact Nat.zero_add _
  · rw [esp_set (by decide), esp_set (by decide), esp_set (by decide), esp_set (by decide),
      esp_setFlags, esp_setFlags]
  · intro reg hreg
    obtain ⟨heax, hcl, hedx, hflags⟩ := slot_ne_of_kept hreg
    rw [value_set_of_ne heax, value_set_of_ne hcl, value_set_of_ne hedx, value_set_of_ne heax,
      value_setFlags hflags, value_setFlags hflags]

/-- A count below the size of a word moves bits from the high word to the low word. -/
theorem steps_ofPart (h : (machine.registers.value .cl).toNat < 32) :
    ∃ after, Shifted machine.registers after ∧
      Steps invoke shiftProcedure 6 (some 0) machine (some 6)
        { machine with registers := after } := by
  have hlt : (machine.registers.value .cl).toNat < 64 := Nat.lt_trans h (by decide)
  obtain ⟨flags, hfirst⟩ := steps_firstPassed invoke hlt
  let first := machine.registers.setFlags flags
  have hcl : first.value .cl = machine.registers.value .cl := value_setFlags (by decide)
  let flagged := first.setFlags (compareFlags (first.value .cl) 0x20)
  have hjump : Steps invoke shiftProcedure 2 (some 2) { machine with registers := first }
      (some 4) { machine with registers := flagged } :=
    steps_passed rfl rfl (by decide) (by decide) (by decide) (by rw [hcl]; exact h)
  let low := flagged.set .eax
    (doubleShift (flagged.value .eax) (flagged.value .edx) (flagged.value .cl))
  let after := low.set .edx (low.value .edx >>> (low.value .cl &&& 31))
  have hbody : Steps invoke shiftProcedure 2 (some 4) { machine with registers := flagged }
      (some 6) { machine with registers := after } :=
    .cons (by decide) (step_shrd rfl) (.cons (by decide) (step_regReg rfl) (.refl ..))
  have hkept : ∀ {reg : Reg}, Reg.eflags.slot ≠ reg.slot →
      flagged.value reg = machine.registers.value reg := by
    intro reg hreg
    rw [value_setFlags hreg, value_setFlags hreg]
  have heax : after.value .eax = doubleShift (machine.registers.value .eax)
      (machine.registers.value .edx) (machine.registers.value .cl) := by
    rw [value_set_of_ne (by decide), value_set_self rfl, hkept (by decide), hkept (by decide),
      hkept (by decide)]
  have hedx : after.value .edx =
      machine.registers.value .edx >>> (machine.registers.value .cl &&& 31) := by
    rw [value_set_self rfl, value_set_of_ne (by decide), value_set_of_ne (by decide),
      hkept (by decide), hkept (by decide)]
  refine ⟨after, ⟨?_, ?_, ?_⟩, (hfirst.trans hjump).trans hbody⟩
  · rw [if_pos hlt, pair, pair, heax, hedx, pair_shiftRight _ _ _ h]
  · rw [esp_set (by decide), esp_set (by decide), esp_setFlags, esp_setFlags]
  · intro reg hreg
    obtain ⟨heax, -, hedx, hflags⟩ := slot_ne_of_kept hreg
    rw [value_set_of_ne hedx, value_set_of_ne heax, hkept hflags]

/-- Every way through the code comes to a return. -/
theorem steps_toReturn (invoke : H.Function → Eval H Unit) (machine : Machine H) :
    ∃ n pc after, n ≤ 8 ∧ pc < shiftProcedure.length ∧
      shiftProcedure.instruction? pc = some .retn ∧ Shifted machine.registers after ∧
      Steps invoke shiftProcedure n (some 0) machine (some pc)
        { machine with registers := after } := by
  by_cases hpair : 64 ≤ (machine.registers.value .cl).toNat
  · obtain ⟨after, hshifted, hsteps⟩ := steps_ofPair hpair
    exact ⟨4, 14, after, by decide, by decide, rfl, hshifted, hsteps⟩
  · by_cases hword : 32 ≤ (machine.registers.value .cl).toNat
    · obtain ⟨after, hshifted, hsteps⟩ := steps_ofWord hword (Nat.not_le.1 hpair)
      exact ⟨8, 11, after, by decide, by decide, rfl, hshifted, hsteps⟩
    · obtain ⟨after, hshifted, hsteps⟩ := steps_ofPart (Nat.not_le.1 hword)
      exact ⟨6, 6, after, by decide, by decide, rfl, hshifted, hsteps⟩

/-! ## The whole run -/

/-- A run that comes to a return with the stack top where it started ends there. -/
theorem endsAfter_of_steps {procedure : Procedure} {n pc : Nat} {after : RegisterFile}
    (hlow : machine.stack.base.toNat + 4 ≤ machine.registers.esp.toNat)
    (hhigh : machine.registers.esp.toNat ≤
      machine.stack.base.toNat + machine.stack.region.size)
    (hsteps : Steps invoke procedure n (some 0) (machine.pushed returnSentinel) (some pc)
      { machine.pushed returnSentinel with registers := after })
    (hesp : after.esp = (machine.pushed returnSentinel).registers.esp)
    (hpc : pc < procedure.length) (hretn : procedure.instruction? pc = some .retn) :
    EndsAfter invoke procedure (n + 1) machine
      { machine.pushed returnSentinel with
        registers := after.setEsp machine.registers.esp } := by
  have hpushed : (machine.pushed returnSentinel).registers.esp = machine.registers.esp - 4 :=
    esp_setEsp
  have hload : (machine.pushed returnSentinel).stack.region.loadWord? after.esp =
      some returnSentinel := by
    rw [hesp, hpushed]
    exact Stack.loadWord?_withWord hlow hhigh returnSentinel
  have hpopped : after.esp + 4 = machine.registers.esp := by
    rw [hesp, hpushed]
    exact UInt32.sub_add_cancel _ _
  have hreturn : step invoke procedure pc
      { machine.pushed returnSentinel with registers := after } = .ok none
      { machine.pushed returnSentinel with
        registers := after.setEsp machine.registers.esp } := by
    rw [← hpopped]
    exact step_retn hretn hload
  exact ⟨none, ⟨_, push_eq_ok hlow hhigh _, hsteps.snoc hpc hreturn⟩, trivial⟩

/-- The listing compiles, and its procedure returns from every machine whose stack has room
for the return address.  It shifts `edx:eax` right by `cl`, whatever is in the rest of `ecx`
and in the flags, and keeps the registers, the data segment and the stack of its caller.
Nine instructions are enough. -/
theorem run_shiftListing (invoke : H.Function → Eval H Unit) (machine : Machine H)
    (data : DataSegment) {limit : Nat} (hlimit : 9 ≤ limit)
    (hlow : machine.stack.base.toNat + 4 ≤ machine.registers.esp.toNat)
    (hhigh : machine.registers.esp ≤ machine.stack.limit) :
    X86Listing.compile shiftListing data = .ok (shiftProcedure, data) ∧
      ∃ machine', run invoke limit shiftProcedure machine = .ok () machine' ∧
        Shifted machine.registers machine'.registers ∧ machine'.data = machine.data ∧
        ∀ address, machine.registers.esp ≤ address →
          machine'.stack.region.loadWord? address = machine.stack.region.loadWord? address := by
  have hcompile : X86Listing.compile shiftListing data = .ok (shiftProcedure, data) := by
    rw [X86Listing.compile, compileInto_shiftListing]
  -- The end of the stack is its base and its size, or less if that is no address.
  have hinside : machine.registers.esp.toNat ≤
      machine.stack.base.toNat + machine.stack.region.size := by
    have hle : machine.registers.esp.toNat ≤ machine.stack.limit.toNat :=
      UInt32.le_iff_toNat_le.1 hhigh
    have hlimit : machine.stack.limit.toNat ≤
        machine.stack.base.toNat + machine.stack.region.size := by
      rw [Stack.limit, UInt32.toNat_add, UInt32.toNat_ofNat', Nat.add_mod_mod]
      exact Nat.mod_le ..
    exact Nat.le_trans hle hlimit
  obtain ⟨n, pc, after, hn, hpc, hretn, hshifted, hsteps⟩ :=
    steps_toReturn invoke (machine.pushed returnSentinel)
  have hends := endsAfter_of_steps hlow hinside hsteps hshifted.esp_eq hpc hretn
  have hrun := run_eq_ok (hends.runWithBudget_eq (by omega : n + 1 ≤ limit))
  exact ⟨hcompile, _, hrun, hshifted.of_setEsp, rfl, fun address => loadWord?_pushed hlow⟩

/-- A machine with a pair of words and a count in its registers. -/
def shiftMachine : Machine ⟨Unit, Unit⟩ :=
  let machine := build ⟨16, 4⟩ ()
  { machine with registers :=
    ((machine.registers.set .edx 0x123).set .eax 0x321).set .ecx 0xffffff08 }

theorem run_shiftListing_shiftMachine :
    ∃ machine', run (fun _ => pure ()) 9 shiftProcedure shiftMachine = .ok () machine' ∧
      machine'.registers.pair = 0x123000003 := by
  obtain ⟨-, machine', hrun, hshifted, -, -⟩ := run_shiftListing (fun _ => pure ()) shiftMachine
    (.new 16) (Nat.le_refl 9) (by decide) (by decide)
  refine ⟨machine', hrun, ?_⟩
  rw [hshifted.pair_eq]
  decide

end Machine

end X86Listing
