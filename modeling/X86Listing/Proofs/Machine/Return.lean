import X86Listing.Proofs.Machine.Budget
import X86Listing.Proofs.Machine.StackTop

/-!
# How a run comes to its end

A run pushes the return sentinel first, so it matters for the stack how it ends.  It can
return, which pops the sentinel, or it can pass the last instruction, which does not.
`run_ends` says that there is no third way to succeed, and where the stack top is after each
of the two if no instruction of the procedure moves it.

* `steps_of_runFrom` is the induction over the loop: an answer stands for a number of
  instructions after which the run is over.
* `step_eq_ok` takes an instruction that succeeds apart.  It is a `retn` and there is no next
  index, or the next index is the one behind it or inside the procedure.  `Yields` is the
  property of the parts of an instruction that this is put together from.
* `endsAfter_cases` looks at the last instruction of a run that is over.
* `step_keepsEsp` is about one instruction that spares the stack top, and `Steps.esp_eq` is the
  induction over the instructions executed.
-/

namespace X86Listing.Machine

variable {H : Host} {invoke : H.Function → Eval H Unit} {procedure : Procedure}

/-- A run returns after `n` instructions.  The last one is a `retn`, and the word that it pops
is the sentinel. -/
def ReturnsAfter (invoke : H.Function → Eval H Unit) (procedure : Procedure) (n : Nat)
    (machine machine' : Machine H) : Prop :=
  ∃ k pc last, n = k + 1 ∧ Reached invoke procedure k machine (some pc) last ∧
    procedure.instruction? pc = some .retn ∧
    last.stack.region.loadWord? last.registers.esp = some returnSentinel ∧
    machine' = last.popped

/-- A run passes the last instruction after `n` instructions.  There is no instruction at all,
or the last one of the procedure was executed last, is no `retn`, and went on behind itself. -/
def PassesEndAfter (invoke : H.Function → Eval H Unit) (procedure : Procedure) (n : Nat)
    (machine machine' : Machine H) : Prop :=
  Reached invoke procedure n machine (some procedure.length) machine' ∧
    (n = 0 ∧ procedure.length = 0 ∨
      ∃ k pc last instruction, n = k + 1 ∧ procedure.length = pc + 1 ∧
        Reached invoke procedure k machine (some pc) last ∧
        procedure.instruction? pc = some instruction ∧ instruction ≠ .retn ∧
        step invoke procedure pc last = .ok (some (pc + 1)) machine')

/-! ## Answers of the loop -/

/-- An answer of the loop stands for a number of instructions, after which the run is over. -/
theorem steps_of_runFrom {allowance pc left : Nat} {machine machine' : Machine H}
    (h : runFrom invoke procedure allowance pc machine = .ok (some left) machine') :
    ∃ n next, Steps invoke procedure n (some pc) machine next machine' ∧
      IsOver procedure next ∧ left + n = allowance := by
  induction allowance generalizing pc machine with
  | zero =>
    by_cases hover : procedure.length ≤ pc
    · rw [runFrom, if_pos hover] at h
      cases h
      exact ⟨0, some pc, .refl .., hover, rfl⟩
    · rw [runFrom, if_neg hover] at h
      cases h
  | succ allowance ih =>
    by_cases hover : procedure.length ≤ pc
    · rw [runFrom, if_pos hover] at h
      cases h
      exact ⟨0, some pc, .refl .., hover, rfl⟩
    · rw [runFrom, if_neg hover] at h
      obtain ⟨next, machine₁, hstep, h⟩ := bind_eq_ok h
      cases next with
      | none =>
        cases h
        exact ⟨1, none, .cons (Nat.not_le.1 hover) hstep (.refl ..), trivial, rfl⟩
      | some next =>
        obtain ⟨n, next', hsteps, hend, hleft⟩ := ih h
        exact ⟨n + 1, next', .cons (Nat.not_le.1 hover) hstep hsteps, hend, by omega⟩

/-- A run with a budget that succeeds is over after the instructions that it counts. -/
theorem endsAfter_of_runWithBudget {budget n : Nat} {machine machine' : Machine H}
    (h : runWithBudget invoke procedure budget machine = .ok n machine') :
    n ≤ budget ∧ EndsAfter invoke procedure n machine machine' := by
  obtain ⟨left, machine₁, hrun, h⟩ := bind_eq_ok h
  obtain ⟨⟨⟩, started, hpush, hloop⟩ := bind_eq_ok hrun
  cases left with
  | none => cases h
  | some left =>
    cases h
    obtain ⟨k, next, hsteps, hover, rfl⟩ := steps_of_runFrom hloop
    rw [Nat.add_sub_cancel_left]
    exact ⟨Nat.le_add_left .., next, ⟨started, hpush, hsteps⟩, hover⟩

theorem runWithBudget_of_run {limit : Nat} {machine machine' : Machine H}
    (h : run invoke limit procedure machine = .ok () machine') :
    ∃ n, runWithBudget invoke procedure limit machine = .ok n machine' := by
  cases hrun : runWithBudget invoke procedure limit machine with
  | error fault reached =>
    rw [run_eq_error hrun] at h
    cases h
  | ok n reached =>
    rw [run_eq_ok hrun] at h
    cases h
    exact ⟨n, rfl⟩

/-! ## Where an instruction goes on -/

section Yields

variable {α β : Type}

/-- Every answer of the computation has a property. -/
def Yields (p : α → Prop) (x : Eval H α) : Prop :=
  ∀ machine a machine', x machine = .ok a machine' → p a

/-- The answer of a sequence is that of its last part. -/
theorem Yields.bind {p : β → Prop} {x : Eval H α} {f : α → Eval H β}
    (hf : ∀ a, Yields p (f a)) : Yields p (x >>= f) := by
  intro machine b machine' h
  obtain ⟨a, machine₁, -, hrest⟩ := bind_eq_ok h
  exact hf a _ _ _ hrest

theorem yields_pure {p : α → Prop} {a : α} (h : p a) : Yields p (pure a : Eval H α) := by
  intro machine b machine' hb
  cases hb
  exact h

theorem yields_throw {p : α → Prop} (fault : Fault) : Yields p (throw fault : Eval H α) := by
  intro machine a machine' h
  cases h

end Yields

/-- The next index is the one behind `pc`, or it is the index of an instruction. -/
def GoesBehindOrInside (procedure : Procedure) (pc : Nat) (next : Option Nat) : Prop :=
  ∃ pc', next = some pc' ∧ (pc' = pc + 1 ∨ pc' < procedure.length)

section Next

variable {pc : Nat}

theorem goesBehind (procedure : Procedure) (pc : Nat) :
    GoesBehindOrInside procedure pc (some (pc + 1)) :=
  ⟨pc + 1, rfl, Or.inl rfl⟩

theorem jump_yields (target : UInt32) :
    Yields (GoesBehindOrInside procedure pc) (jump procedure target : Eval H (Option Nat)) := by
  unfold jump
  cases hindex : procedure.indexOf? target with
  | none => exact yields_throw _
  | some index => exact yields_pure ⟨index, rfl, Or.inr (codeIndex?_eq_some_iff.1 hindex).2⟩

theorem branch_yields (condition : Condition) (target : UInt32) :
    Yields (GoesBehindOrInside procedure pc)
      (branch procedure pc condition target : Eval H (Option Nat)) := by
  refine Yields.bind fun machine => ?_
  split
  · exact jump_yields target
  · exact yields_pure (goesBehind procedure pc)

theorem executeReg_yields (op : RegOp) (r0 : Reg) :
    Yields (GoesBehindOrInside procedure pc)
      (executeReg procedure pc op r0 : Eval H (Option Nat)) := by
  refine Yields.bind fun value => ?_
  have hbehind := goesBehind procedure pc
  cases op with
  | push | not | inc | dec => exact Yields.bind fun _ => yields_pure hbehind
  | pop => exact Yields.bind fun _ => Yields.bind fun _ => yields_pure hbehind
  | jump condition => exact branch_yields condition value

theorem executeImm_yields (op : ImmOp) (v0 : UInt32) :
    Yields (GoesBehindOrInside procedure pc)
      (executeImm procedure pc op v0 : Eval H (Option Nat)) := by
  cases op with
  | push => exact Yields.bind fun _ => yields_pure (goesBehind procedure pc)
  | jump condition => exact branch_yields condition v0

/-- Every instruction but `retn` has a next one behind it or inside the procedure. -/
theorem execute_yields {instruction : Instruction} (h : instruction ≠ .retn) :
    Yields (GoesBehindOrInside procedure pc) (execute invoke procedure pc instruction) := by
  have hbehind := goesBehind procedure pc
  cases instruction with
  | retn => exact absurd rfl h
  | call target =>
    refine Yields.bind fun machine => ?_
    cases machine.functions.get? target with
    | none => exact yields_throw _
    | some function => exact Yields.bind fun _ => yields_pure hbehind
  | reg op r0 => exact executeReg_yields op r0
  | imm op v0 => exact executeImm_yields op v0
  | jumpTable condition v0 r0 v1 =>
    refine Yields.bind fun machine => ?_
    simp only
    split
    · exact Yields.bind fun target => jump_yields target
    · exact yields_pure hbehind
  | regReg | shrd | regImm | regMem | lea | mem | memReg | memImm =>
    exact Yields.bind fun _ => yields_pure hbehind

/-- What an instruction that succeeds can have done to the run. -/
theorem step_eq_ok {next : Option Nat} {machine machine' : Machine H}
    (h : step invoke procedure pc machine = .ok next machine') :
    ∃ instruction, procedure.instruction? pc = some instruction ∧
      (instruction = .retn ∧ next = none ∧
          machine.stack.region.loadWord? machine.registers.esp = some returnSentinel ∧
          machine' = machine.popped ∨
        instruction ≠ .retn ∧ GoesBehindOrInside procedure pc next) := by
  unfold step at h
  cases hpc : procedure.instruction? pc with
  | none =>
    rw [hpc] at h
    cases h
  | some instruction =>
    rw [hpc] at h
    replace h : execute invoke procedure pc instruction machine = .ok next machine' := h
    refine ⟨instruction, rfl, ?_⟩
    by_cases hretn : instruction = .retn
    · subst hretn
      obtain ⟨address, machine₁, hpop, hcheck⟩ := bind_eq_ok h
      obtain ⟨rfl, hload⟩ := pop_of_eq_ok hpop
      by_cases haddress : address = returnSentinel
      · rw [if_pos haddress] at hcheck
        cases hcheck
        exact Or.inl ⟨rfl, rfl, haddress ▸ hload, rfl⟩
      · rw [if_neg haddress] at hcheck
        cases hcheck
    · exact Or.inr ⟨hretn, execute_yields hretn machine next machine' h⟩

end Next

/-! ## The last instruction -/

/-- The last of some instructions. -/
theorem Steps.last {n : Nat} {pc next : Option Nat} {machine machine' : Machine H}
    (h : Steps invoke procedure (n + 1) pc machine next machine') :
    ∃ i reached, Steps invoke procedure n pc machine (some i) reached ∧
      i < procedure.length ∧ step invoke procedure i reached = .ok next machine' := by
  induction n generalizing pc machine with
  | zero =>
    cases h with
    | @cons _ i _ _ _ machine₁ _ hpc hstep hrest =>
      cases hrest
      exact ⟨i, machine, .refl .., hpc, hstep⟩
  | succ n ih =>
    cases h with
    | cons hpc hstep hrest =>
      obtain ⟨i, reached, hsteps, hi, hlast⟩ := ih hrest
      exact ⟨i, reached, .cons hpc hstep hsteps, hi, hlast⟩

/-- A run that is over has returned or has passed the last instruction. -/
theorem endsAfter_cases {n : Nat} {machine machine' : Machine H}
    (h : EndsAfter invoke procedure n machine machine') :
    ReturnsAfter invoke procedure n machine machine' ∨
      PassesEndAfter invoke procedure n machine machine' := by
  obtain ⟨next, ⟨started, hpush, hsteps⟩, hover⟩ := h
  cases n with
  | zero =>
    right
    cases hsteps
    have hempty : procedure.length = 0 := Nat.le_zero.1 hover
    exact ⟨⟨machine', hpush, by rw [hempty]; exact .refl ..⟩, Or.inl ⟨rfl, hempty⟩⟩
  | succ n =>
    obtain ⟨pc, last, hbefore, hpc, hstep⟩ := hsteps.last
    have hreached : Reached invoke procedure n machine (some pc) last := ⟨started, hpush, hbefore⟩
    obtain ⟨instruction, hinstruction, ⟨rfl, rfl, hload, rfl⟩ | ⟨hretn, pc', rfl, hnext⟩⟩ :=
      step_eq_ok hstep
    · exact Or.inl ⟨n, pc, last, rfl, hreached, hinstruction, hload, rfl⟩
    · right
      have hend : procedure.length ≤ pc' := hover
      obtain rfl : pc' = pc + 1 := by omega
      have hlength : procedure.length = pc + 1 := by omega
      refine ⟨⟨started, hpush, by rw [hlength]; exact hsteps⟩, Or.inr ?_⟩
      exact ⟨n, pc, last, instruction, rfl, hlength, hreached, hinstruction, hretn, hstep⟩

/-- A procedure whose last instruction is a `retn` is not passed. -/
theorem not_passesEndAfter {n pc : Nat} {machine machine' : Machine H}
    (hlength : procedure.length = pc + 1) (hretn : procedure.instruction? pc = some .retn) :
    ¬PassesEndAfter invoke procedure n machine machine' := by
  rintro ⟨-, ⟨-, hempty⟩ | ⟨k, pc', last, instruction, -, hlength', -, hinstruction, hne, -⟩⟩
  · omega
  · obtain rfl : pc' = pc := by omega
    rw [hretn] at hinstruction
    exact hne (Option.some.inj hinstruction).symm

/-! ## The stack top -/

/-- An instruction behind which the run goes on has left the stack top. -/
theorem step_keepsEsp {pc pc' : Nat} {machine machine' : Machine H}
    (hspares : ∀ instruction ∈ procedure.instructions, instruction.SparesEsp)
    (h : step invoke procedure pc machine = .ok (some pc') machine') :
    machine'.registers.esp = machine.registers.esp := by
  obtain ⟨instruction, hpc, ⟨-, hnext, -⟩ | ⟨hretn, -⟩⟩ := step_eq_ok h
  · cases hnext
  · have hmem : instruction ∈ procedure.instructions := Array.mem_of_getElem? hpc
    rw [step, hpc] at h
    exact execute_keepsEsp (hspares instruction hmem) hretn _ _ _ h

theorem Steps.esp_eq {n : Nat} {pc : Option Nat} {pc' : Nat} {machine machine' : Machine H}
    (hspares : ∀ instruction ∈ procedure.instructions, instruction.SparesEsp)
    (h : Steps invoke procedure n pc machine (some pc') machine') :
    machine'.registers.esp = machine.registers.esp := by
  generalize hend : some pc' = next at h
  induction h with
  | refl => rfl
  | @cons _ _ next _ _ _ _ hpc hstep hrest ih =>
    cases next with
    | none =>
      cases hrest
      cases hend
    | some next => exact (ih hend).trans (step_keepsEsp hspares hstep)

/-- Between two instructions of a run the stack top is at the sentinel. -/
theorem Reached.esp_eq {n pc : Nat} {machine machine' : Machine H}
    (hspares : ∀ instruction ∈ procedure.instructions, instruction.SparesEsp)
    (h : Reached invoke procedure n machine (some pc) machine') :
    machine'.registers.esp = machine.registers.esp - 4 := by
  obtain ⟨started, hpush, hsteps⟩ := h
  rw [hsteps.esp_eq hspares, esp_of_push hpush]

/-! ## Runs -/

/-- A run that succeeds, with a budget or without, has returned or has passed the last
instruction of the procedure.  If the instructions spare `esp`, it leaves the stack top where
it was in the first case, and one word lower in the second. -/
theorem run_ends {budget : Nat} {machine machine' : Machine H}
    (h : run invoke budget procedure machine = .ok () machine' ∨
      ∃ n, runWithBudget invoke procedure budget machine = .ok n machine') :
    ∃ n ≤ budget,
      ReturnsAfter invoke procedure n machine machine' ∧
          ((∀ instruction ∈ procedure.instructions, instruction.SparesEsp) →
            machine'.registers.esp = machine.registers.esp) ∨
        PassesEndAfter invoke procedure n machine machine' ∧
          ((∀ instruction ∈ procedure.instructions, instruction.SparesEsp) →
            machine'.registers.esp = machine.registers.esp - 4) := by
  obtain ⟨n, hrun⟩ : ∃ n, runWithBudget invoke procedure budget machine = .ok n machine' :=
    h.elim runWithBudget_of_run id
  obtain ⟨hle, hends⟩ := endsAfter_of_runWithBudget hrun
  refine ⟨n, hle, ?_⟩
  rcases endsAfter_cases hends with hreturns | hpasses
  · refine Or.inl ⟨hreturns, fun hspares => ?_⟩
    obtain ⟨k, pc, last, -, hreached, -, -, rfl⟩ := hreturns
    have hesp := hreached.esp_eq hspares
    show (last.registers.setEsp (last.registers.esp + 4)).esp = _
    rw [RegisterFile.esp_setEsp, hesp, UInt32.sub_add_cancel]
  · exact Or.inr ⟨hpasses, fun hspares => hpasses.1.esp_eq hspares⟩

/-- A procedure without a `retn`. -/
def fallingProcedure : Procedure :=
  ⟨"f", .empty, .empty, #[.regImm .mov .eax 5]⟩

theorem sparesEsp_smallProcedures :
    (∀ instruction ∈ returningProcedure.instructions, instruction.SparesEsp) ∧
      ∀ instruction ∈ fallingProcedure.instructions, instruction.SparesEsp := by
  have hmov : (Instruction.regImm .mov .eax 5).SparesEsp := Or.inr (by decide)
  constructor
  · intro instruction hmem
    rcases List.mem_cons.1 (Array.mem_toList_iff.2 hmem) with rfl | hmem
    · exact hmov
    · rw [List.mem_singleton.1 hmem]
      trivial
  · intro instruction hmem
    rw [List.mem_singleton.1 (Array.mem_toList_iff.2 hmem)]
    exact hmov

/-- A procedure without a `retn` does not return. -/
theorem not_returnsAfter_fallingProcedure (n : Nat) (machine machine' : Machine H) :
    ¬ReturnsAfter invoke fallingProcedure n machine machine' := by
  rintro ⟨k, pc, last, -, -, hretn, -⟩
  cases pc with
  | zero => cases hretn
  | succ pc => cases hretn

/-- The two procedures on a machine of four slots, up to their first instruction. -/
theorem starts_smallProcedures :
    ∃ machine started moved : Machine ⟨Unit, Unit⟩,
      push returnSentinel machine = .ok () started ∧
        moved.stack.region.loadWord? moved.registers.esp = some returnSentinel ∧
        step (fun _ => pure ()) returningProcedure 0 started = .ok (some 1) moved ∧
        EndsAfter (fun _ => pure ()) fallingProcedure 1 machine moved ∧
        moved.registers.esp ≠ machine.registers.esp := by
  let machine : Machine ⟨Unit, Unit⟩ := build ⟨16, 4⟩ ()
  have hlow : machine.stack.base.toNat + 4 ≤ machine.registers.esp.toNat := by decide
  have hhigh : machine.registers.esp.toNat ≤
      machine.stack.base.toNat + machine.stack.region.size := by decide
  let started := machine.pushed returnSentinel
  have hpush : push returnSentinel machine = .ok () started := push_eq_ok hlow hhigh _
  have hload := Stack.loadWord?_withWord hlow hhigh returnSentinel
  let moved := { started with registers := started.registers.set .eax 5 }
  have hmov : returningProcedure.instruction? 0 = some (.regImm .mov .eax 5) := rfl
  have hmov' : fallingProcedure.instruction? 0 = some (.regImm .mov .eax 5) := rfl
  have hreturning : step (fun _ => pure ()) returningProcedure 0 started = .ok (some 1) moved :=
    step_regImm hmov
  have hfalling : step (fun _ => pure ()) fallingProcedure 0 started = .ok (some 1) moved :=
    step_regImm hmov'
  have hpassed : EndsAfter (fun _ => pure ()) fallingProcedure 1 machine moved :=
    ⟨some 1, ⟨started, hpush, .cons (by decide) hfalling (.refl ..)⟩, Nat.le_refl 1⟩
  exact ⟨machine, started, moved, hpush, hload, hreturning, hpassed, by decide⟩

theorem run_ends_smallProcedures :
    ∃ machine returned passed : Machine ⟨Unit, Unit⟩,
      run (fun _ => pure ()) 2 returningProcedure machine = .ok () returned ∧
        returned.registers.esp = machine.registers.esp ∧
      run (fun _ => pure ()) 1 fallingProcedure machine = .ok () passed ∧
        passed.registers.esp = machine.registers.esp - 4 := by
  obtain ⟨hreturning, hfalling⟩ := sparesEsp_smallProcedures
  obtain ⟨machine, started, moved, hpush, hload, hfirst, hpassed, -⟩ := starts_smallProcedures
  have hreturned : EndsAfter (fun _ => pure ()) returningProcedure 2 machine moved.popped :=
    ⟨none, ⟨started, hpush, .cons (by decide) hfirst
      (.cons (by decide) (step_retn rfl hload) (.refl ..))⟩, trivial⟩
  have hrun := run_eq_ok (hreturned.runWithBudget_eq (Nat.le_refl 2))
  have hrun' := run_eq_ok (hpassed.runWithBudget_eq (Nat.le_refl 1))
  refine ⟨machine, moved.popped, moved, hrun, ?_, hrun', ?_⟩
  · obtain ⟨n, -, ⟨-, hesp⟩ | ⟨hpasses, -⟩⟩ := run_ends (Or.inl hrun)
    · exact hesp hreturning
    · have hlast : returningProcedure.instruction? 1 = some .retn := rfl
      exact absurd hpasses (not_passesEndAfter rfl hlast)
  · obtain ⟨n, -, ⟨hreturns, -⟩ | ⟨-, hesp⟩⟩ := run_ends (Or.inl hrun')
    · exact absurd hreturns (not_returnsAfter_fallingProcedure n _ _)
    · exact hesp hfalling

/-- Not every run that succeeds has returned, and not every such run leaves the stack top
where it was. -/
theorem not_run_returns :
    ¬(∀ (invoke : Unit → Eval ⟨Unit, Unit⟩ Unit) (procedure : Procedure) (budget : Nat)
        (machine machine' : Machine ⟨Unit, Unit⟩),
        run invoke budget procedure machine = .ok () machine' →
          ∃ n, ReturnsAfter invoke procedure n machine machine') ∧
      ¬∀ (invoke : Unit → Eval ⟨Unit, Unit⟩ Unit) (procedure : Procedure) (budget : Nat)
        (machine machine' : Machine ⟨Unit, Unit⟩),
        (∀ instruction ∈ procedure.instructions, instruction.SparesEsp) →
        run invoke budget procedure machine = .ok () machine' →
          machine'.registers.esp = machine.registers.esp := by
  obtain ⟨-, hfalling⟩ := sparesEsp_smallProcedures
  obtain ⟨machine, started, moved, -, -, -, hpassed, hmoved⟩ := starts_smallProcedures
  have hrun := run_eq_ok (hpassed.runWithBudget_eq (Nat.le_refl 1))
  constructor
  · intro hall
    obtain ⟨n, hreturns⟩ := hall _ fallingProcedure 1 machine moved hrun
    exact not_returnsAfter_fallingProcedure n machine moved hreturns
  · intro hall
    exact hmoved (hall _ fallingProcedure 1 machine moved hfalling hrun)

end X86Listing.Machine
