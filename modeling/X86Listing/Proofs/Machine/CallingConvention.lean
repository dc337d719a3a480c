import X86Listing.Proofs.Machine.Frame
import X86Listing.Proofs.Source.Locals

/-!
# The calling convention

`frameListing k` is a procedure that loads the argument at depth `k`, by the name of a local
that stands for the distance from `ebp`.  `run_frameListing` says that it answers the word of
`arg k`, and that the caller notices nothing else.  So the frame and the host agree on where
the arguments are, at every depth and for every stack top.

* `ofSource_frameListing` puts the listing into lines around a number that is not given, and
  `compileInto_frameListing` compiles it.
* `endsAfter_frameProcedure` is the run of its five instructions.
-/

namespace X86Listing

open Text (isBlank isSpace pieces)

/-! ## The listing -/

/-- The listing behind the local. -/
def frameText : String :=
  "push ebp\nmov ebp, esp\nmov eax, [ebp+arg_0]\npop ebp\nretn\ng endp"

/-- A procedure that answers the argument at a depth. -/
def frameListing (k : Nat) : String :=
  "g proc near\narg_0 = dword ptr " ++ toString (8 + 4 * k) ++ "\n" ++ frameText

/-- The line that declares the local. -/
def frameLocal (k : Nat) : Line :=
  ⟨2, "arg_0 = dword ptr ".toList ++ Nat.toDigits 10 (8 + 4 * k)⟩

/-- The lines behind the local. -/
def frameCode : List Line :=
  [⟨3, "push ebp".toList⟩, ⟨4, "mov ebp, esp".toList⟩, ⟨5, "mov eax, [ebp+arg_0]".toList⟩,
    ⟨6, "pop ebp".toList⟩, ⟨7, "retn".toList⟩, ⟨8, "g endp".toList⟩]

/-- The instructions of the listing, by the value of the local. -/
def frameInstructions (offset : UInt32) : List Instruction :=
  [.reg .push .ebp, .regReg .mov .ebp .esp, .regMem .mov .eax ⟨.ebp, offset⟩, .reg .pop .ebp,
    .retn]

/-- The locals of the listing. -/
def frameLocals (offset : UInt32) : NameMap UInt32 :=
  NameMap.empty.insert "arg_0" offset

/-- The procedure of the listing. -/
def frameProcedure (k : Nat) : Procedure :=
  ⟨"g", frameLocals (UInt32.ofNat (8 + 4 * k)), .empty,
    (frameInstructions (UInt32.ofNat (8 + 4 * k))).toArray⟩

theorem toList_frameListing (k : Nat) :
    (frameListing k).toList = "g proc near".toList ++ '\n' ::
      (("arg_0 = dword ptr ".toList ++ Nat.toDigits 10 (8 + 4 * k)) ++ '\n' ::
        frameText.toList) := by
  have hdigits : (toString (8 + 4 * k)).toList = Nat.toDigits 10 (8 + 4 * k) := by
    rw [Nat.toString_eq_ofList_toDigits, String.toList_ofList]
  have hfirst : "g proc near\narg_0 = dword ptr ".toList =
      "g proc near".toList ++ '\n' :: "arg_0 = dword ptr ".toList := by decide
  have hbreak : "\n".toList = ['\n'] := by decide
  unfold frameListing
  rw [String.toList_append, String.toList_append, String.toList_append, hdigits, hfirst, hbreak]
  simp only [List.append_assoc, List.cons_append, List.nil_append]

/-- The line of the local is in normal form, whatever its digits are. -/
theorem normalize_frameLocal (k : Nat) : normalize (frameLocal k).text = (frameLocal k).text := by
  have hdigits : ∀ c ∈ Nat.toDigits 10 (8 + 4 * k), IsPlain c := fun c hc =>
    isPlain_of_isDigit (Nat.isDigit_of_mem_toDigits (by decide) (by decide) hc)
  have hfront : normalize (frameLocal k).text = "arg_0 = dword ptr".toList ++
      normalizeFrom none true true (Nat.toDigits 10 (8 + 4 * k)) := by
    simp [frameLocal, normalize, normalizeFrom, isBlank, isQuote]
  rw [hfront, normalizeFrom_pending hdigits Nat.toDigits_ne_nil]
  rfl

theorem ofSource_frameListing (k : Nat) :
    Line.ofSource (frameListing k) = ⟨1, "g proc near".toList⟩ :: frameLocal k :: frameCode := by
  have hheader : normalize "g proc near".toList = "g proc near".toList := by decide
  have hlocal : normalize ("arg_0 = dword ptr ".toList ++ Nat.toDigits 10 (8 + 4 * k)) =
      (frameLocal k).text := normalize_frameLocal k
  have hcode : Line.ofRaw 2 (pieces '\n' frameText.toList) = frameCode := by decide
  have hline : '\n' ∉ "arg_0 = dword ptr ".toList ++ Nat.toDigits 10 (8 + 4 * k) := by
    rw [List.mem_append, not_or]
    refine ⟨by decide, fun hmem => ?_⟩
    exact absurd (Nat.isDigit_of_mem_toDigits (by decide) (by decide) hmem) (by decide)
  have hne : (frameLocal k).text ≠ [] := by simp [frameLocal]
  rw [Line.ofSource, toList_frameListing, Text.pieces_append_cons (by decide),
    Text.pieces_append_cons hline, Line.ofRaw_cons (by rw [hheader]; simp),
    Line.ofRaw_cons (by rw [hlocal]; exact hne), hheader, hlocal, hcode]
  rfl

section Compile

variable {k : Nat} (hk : 8 + 4 * k < 2 ^ 32)
include hk

theorem local?_frameLocal :
    local? (frameLocal k).text = some ("arg_0".toList, UInt32.ofNat (8 + 4 * k)) := by
  have hname : IsIdentifier "arg_0".toList := ⟨rfl, by simp [continuesIdentifier]⟩
  have hspace : ∀ c ∈ [' '], isSpace c = true := by simp [isSpace]
  have hwidth : isWidth "dword".toList = true := by decide
  have hdeclaration := local?_declaration hname hspace hspace hwidth hspace (by simp) (.refl _)
    hspace (by simp) (literal_toDigits hk)
  exact hdeclaration

theorem of_frameLocal :
    LineKind.of .code (frameLocal k).text =
      .localName "arg_0".toList (UInt32.ofNat (8 + 4 * k)) := by
  rw [LineKind.of, local?_frameLocal hk]

theorem survey_frameListing :
    survey (frameLocal k :: frameCode) =
      ⟨frameLocals (UInt32.ofNat (8 + 4 * k)), .empty, 5, true⟩ := by
  have hkinds : frameCode.map (fun line => LineKind.of .code line.text) =
      [.code, .code, .code, .code, .code, .closing] := by decide
  simp only [frameCode, List.map_cons, List.cons.injEq] at hkinds
  obtain ⟨h₁, h₂, h₃, h₄, h₅, h₆, -⟩ := hkinds
  simp only [survey, Survey.read, of_frameLocal hk, frameCode, h₁, h₂, h₃, h₄, h₅, h₆]
  rfl

theorem outline_frameListing :
    outline .code (frameLocal k :: frameCode) =
      (.localName "arg_0".toList (UInt32.ofNat (8 + 4 * k)), frameLocal k) ::
        (frameCode.take 5).map fun line => (.code, line) := by
  have hcode : outline .code frameCode = (frameCode.take 5).map fun line => (.code, line) := by
    decide
  rw [outline_cons (of_frameLocal hk) (by simp) (by simp), hcode]

end Compile

theorem decode_frameCode (offset : UInt32) :
    (frameCode.take 5).map (fun line => decode ⟨frameLocals offset, .empty, .new 0⟩ line.text) =
      (frameInstructions offset).map .ok := rfl

theorem splitHeader?_frameListing (k : Nat) :
    splitHeader? (Line.ofSource (frameListing k)) = some ("g", frameLocal k :: frameCode) := by
  have hname : headerName? "g proc near".toList = some "g".toList := by decide
  rw [ofSource_frameListing, splitHeader?, hname]
  show some (String.ofList "g".toList, _) = _
  rw [String.ofList_toList]

/-- The listing compiles into any data segment and adds nothing to it. -/
theorem compileInto_frameListing {k : Nat} (hk : 8 + 4 * k < 2 ^ 32) (data : DataSegment) :
    compileInto (frameListing k) data = .ok (frameProcedure k) data := by
  have houtline := outline_frameListing hk
  have hsurvey := survey_frameListing hk
  have hclosed : (survey (frameLocal k :: frameCode)).closed = true := by rw [hsurvey]
  have hdata : dataLines (frameLocal k :: frameCode) = [] := by
    rw [dataLines, houtline]
    rfl
  have hcode : (codeLines (frameLocal k :: frameCode)).map (fun line => decode
      ⟨(survey (frameLocal k :: frameCode)).locals,
        Labels.resolve (survey (frameLocal k :: frameCode)).labels, .new 0⟩ line.text) =
      (frameInstructions (UInt32.ofNat (8 + 4 * k))).map .ok := by
    rw [hsurvey, codeLines, houtline]
    exact decode_frameCode _
  rw [compileInto_of_decodes (splitHeader?_frameListing k) hclosed hdata hcode
    (by simp [frameInstructions]) data, hsurvey]
  rfl

namespace Machine

open RegisterFile

variable {H : Host} {invoke : H.Function → Eval H Unit} {machine : Machine H}

theorem compile_frameListing {k : Nat} (hk : 8 + 4 * k < 2 ^ 32)
    (hnone : machine.procedures.get? "g" = none) :
    compile (frameListing k) machine = .ok (frameProcedure k)
      { machine with procedures := machine.procedures.insert (frameProcedure k) } := by
  have hcached : machine.procedures.cached? (frameListing k) = none := by
    rw [ProcedureStore.cached?, procedureName?, splitHeader?_frameListing]
    exact hnone
  simp only [compile, ProcedureStore.compile, hcached, compileInto_frameListing hk]

/-! ## The whole run -/

/-- A run of the procedure comes back to the caller after five instructions. -/
theorem endsAfter_frameProcedure {k : Nat} {word : UInt32}
    (hlow : machine.stack.base.toNat + 8 ≤ machine.registers.esp.toNat)
    (hhigh : machine.registers.esp.toNat ≤
      machine.stack.base.toNat + machine.stack.region.size)
    (hword : machine.entered.wordAt? (machine.entered.registers.value .ebp +
      UInt32.ofNat (8 + 4 * k)) = some word) :
    EndsAfter invoke (frameProcedure k) 5 machine
      { machine.entered with registers := machine.registers.set .eax word } := by
  have hlength : (frameProcedure k).length = 5 := rfl
  have hmov : (frameProcedure k).instruction? 2 =
      some (.regMem .mov .eax ⟨.ebp, UInt32.ofNat (8 + 4 * k)⟩) := rfl
  have henter : Steps invoke (frameProcedure k) 2 (some 0) (machine.pushed returnSentinel)
      (some 2) machine.entered :=
    steps_enterFrame rfl rfl (by omega) (low_pushed hlow _) (high_pushed hlow hhigh _)
  have hload : step invoke (frameProcedure k) 2 machine.entered = .ok (some 3)
      { machine.entered with registers := machine.entered.registers.set .eax word } :=
    step_regMem hmov hword
  have hleave : Steps invoke (frameProcedure k) 2 (some 3) _ none
      { machine.entered with registers := machine.registers.set .eax word } :=
    steps_return rfl rfl (by omega) hlow hhigh word
  have hpush : push returnSentinel machine = .ok () (machine.pushed returnSentinel) :=
    push_eq_ok (by omega) hhigh _
  exact ⟨none, ⟨_, hpush, (henter.snoc (by omega) hload).trans hleave⟩, trivial⟩

/-- A run of the procedure answers the argument and keeps everything above the stack top. -/
theorem run_frameProcedure {config : Config} (hvalid : config.validate = .ok ())
    (hlayout : Layout config machine)
    (hlow : machine.stack.base.toNat + 8 ≤ machine.registers.esp.toNat)
    (hhigh : machine.registers.esp ≤ machine.stack.limit) {k limit : Nat} {word : UInt32}
    (harg : arg k machine = .ok word machine) (hlimit : 5 ≤ limit) :
    ∃ final, run invoke limit (frameProcedure k) machine = .ok () final ∧
      final.registers = machine.registers.set .eax word ∧
      ∀ depth, final.stack.top final.registers.esp depth =
        machine.stack.top machine.registers.esp depth := by
  have hinside : machine.registers.esp.toNat ≤
      machine.stack.base.toNat + machine.stack.region.size :=
    Nat.le_trans (UInt32.le_iff_toNat_le.1 hhigh) machine.stack.toNat_limit_le
  have hends : EndsAfter invoke (frameProcedure k) 5 machine _ :=
    endsAfter_frameProcedure hlow hinside (wordAt?_entered hvalid hlayout hlow harg)
  refine ⟨_, run_eq_ok (hends.runWithBudget_eq hlimit), rfl, ?_⟩
  intro depth
  show machine.entered.stack.top (machine.registers.set .eax word).esp depth = _
  have hbase : machine.entered.stack.base = machine.stack.base := rfl
  rw [esp_set (by decide)]
  refine Stack.top_congr hbase ?_ depth
  intro address haddress
  exact loadWord?_entered hlow haddress

/-- The listing of any depth compiles, and its procedure answers in `eax` the word that `arg`
answers for this depth before the call.  The caller finds the other registers and all its
arguments as they were.  Eight bytes of the stack are enough, wherever its top is, and five
instructions.  `Reachable.layout` gives `hlayout` for all machines of accepted sizes. -/
theorem run_frameListing {config : Config} (hvalid : config.validate = .ok ())
    {machine : Machine H} (hlayout : Layout config machine)
    (hnone : machine.procedures.get? "g" = none)
    (hlow : machine.stack.base.toNat + 8 ≤ machine.registers.esp.toNat)
    (hhigh : machine.registers.esp ≤ machine.stack.limit) {k : Nat} (hk : 8 + 4 * k < 2 ^ 32)
    {word : UInt32} (harg : arg k machine = .ok word machine)
    (invoke : H.Function → Eval H Unit) {limit : Nat} (hlimit : 5 ≤ limit) :
    ∃ procedure compiled final, compile (frameListing k) machine = .ok procedure compiled ∧
      run invoke limit procedure compiled = .ok () final ∧
      final.registers = machine.registers.set .eax word ∧
      ∀ depth, (∀ answer, arg depth final = .ok answer final ↔
          arg depth machine = .ok answer machine) ∧
        ∀ fault, arg depth final = .error fault final ↔
          arg depth machine = .error fault machine := by
  let compiled : Machine H :=
    { machine with procedures := machine.procedures.insert (frameProcedure k) }
  have hlayout' : Layout config compiled :=
    ⟨hlayout.data, hlayout.stack_base, hlayout.stack_size⟩
  have htop := arg_eq_ok_iff.1 harg
  have harg' : arg k compiled = .ok word compiled := arg_eq_ok_iff.2 htop
  obtain ⟨final, hrun, hregisters, hkept⟩ :
      ∃ final, run invoke limit (frameProcedure k) compiled = .ok () final ∧ _ ∧ _ :=
    run_frameProcedure hvalid hlayout' hlow hhigh harg' hlimit
  refine ⟨frameProcedure k, compiled, final, compile_frameListing hk hnone, hrun, hregisters, ?_⟩
  intro depth
  constructor
  · intro answer
    rw [arg_eq_ok_iff, arg_eq_ok_iff, hkept]
  · intro fault
    rw [arg_eq_error_iff, arg_eq_error_iff, hkept]

/-- A machine with two arguments on its stack. -/
def argumentMachine : Machine ⟨Unit, Unit⟩ :=
  ((build ⟨16, 8⟩ ()).pushed 0x22).pushed 0x11

theorem run_frameListing_argumentMachine :
    ∃ procedure compiled final,
      compile (frameListing 1) argumentMachine = .ok procedure compiled ∧
      run (fun _ => pure ()) 5 procedure compiled = .ok () final ∧
      final.registers = argumentMachine.registers.set .eax 0x22 ∧
      arg 0 final = .ok 0x11 final := by
  have hbuild := @layout_build ⟨Unit, Unit⟩ ⟨16, 8⟩ rfl ()
  have hlayout : Layout ⟨16, 8⟩ argumentMachine :=
    ⟨hbuild.data, hbuild.stack_base, hbuild.stack_size⟩
  have harg : arg 1 argumentMachine = .ok 0x22 argumentMachine :=
    arg_eq_ok_iff.2 (by decide +kernel)
  have harg' : arg 0 argumentMachine = .ok 0x11 argumentMachine :=
    arg_eq_ok_iff.2 (by decide +kernel)
  obtain ⟨procedure, compiled, final, hcompile, hrun, hregisters, hkept⟩ :=
    run_frameListing rfl hlayout rfl (by decide) (by decide) (by decide) harg
      (fun _ => pure ()) (Nat.le_refl 5)
  exact ⟨procedure, compiled, final, hcompile, hrun, hregisters, ((hkept 0).1 0x11).2 harg'⟩

end Machine

end X86Listing
