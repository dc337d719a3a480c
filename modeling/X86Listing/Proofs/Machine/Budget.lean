import X86Listing.Machine.Run
import X86Listing.Proofs.Answer
import X86Listing.Proofs.Machine.Instruction

/-!
# Runs with a budget

A run pushes the return sentinel and executes one instruction after another until
the procedure returns, the index passes the last instruction, or an instruction
faults.  A budget cuts this short.  `runWithBudget_agrees` says where the cut is.

* `Steps` is the loop without a budget, as a relation that counts instructions, and
  `Reached` is the same for a run from its start.  `EndsAfter`, `FaultsAfter` and
  `GoesOn` are the three ways in which the loop can go on from there, and
  `ends_or_faults_or_goesOn` says that there is no fourth.
* `resume` is what is left to do for a run that was stopped between two
  instructions.  `Steps.resume_eq` is the induction over the instructions executed:
  an allowance that is larger by their number is left with what it was.
* `Reached.before` gives the shorter runs inside a longer one.
-/

namespace X86Listing.Machine

variable {H : Host} {invoke : H.Function → Eval H Unit} {procedure : Procedure}

/-! ## The loop without a budget -/

/-- Has a run nothing left to do?  It has returned, which leaves no next index, or
the next index is past the last instruction. -/
def IsOver (procedure : Procedure) : Option Nat → Prop
  | none => True
  | some pc => procedure.length ≤ pc

/-- `Steps invoke procedure n pc machine pc' machine'` says that `n` instructions,
the first one at `pc`, lead from `machine` to `machine'`, and that `pc'` comes
next. -/
inductive Steps (invoke : H.Function → Eval H Unit) (procedure : Procedure) :
    Nat → Option Nat → Machine H → Option Nat → Machine H → Prop where
  | refl (pc : Option Nat) (machine : Machine H) : Steps invoke procedure 0 pc machine pc machine
  | cons {n pc : Nat} {next pc' : Option Nat} {machine machine₁ machine' : Machine H}
      (hpc : pc < procedure.length) (hstep : step invoke procedure pc machine = .ok next machine₁)
      (hrest : Steps invoke procedure n next machine₁ pc' machine') :
      Steps invoke procedure (n + 1) (some pc) machine pc' machine'

/-- A run on `machine` executes `n` instructions, after which the machine is
`machine'` and `pc` comes next. -/
def Reached (invoke : H.Function → Eval H Unit) (procedure : Procedure) (n : Nat)
    (machine : Machine H) (pc : Option Nat) (machine' : Machine H) : Prop :=
  ∃ started, push returnSentinel machine = .ok () started ∧
    Steps invoke procedure n (some 0) started pc machine'

/-- A run is over after `n` instructions. -/
def EndsAfter (invoke : H.Function → Eval H Unit) (procedure : Procedure) (n : Nat)
    (machine machine' : Machine H) : Prop :=
  ∃ pc, Reached invoke procedure n machine pc machine' ∧ IsOver procedure pc

/-- A run faults in the instruction behind the first `n`. -/
def FaultsAfter (invoke : H.Function → Eval H Unit) (procedure : Procedure) (n : Nat)
    (machine : Machine H) (fault : Fault) (machine' : Machine H) : Prop :=
  ∃ pc reached, Reached invoke procedure n machine (some pc) reached ∧
    pc < procedure.length ∧ step invoke procedure pc reached = .error fault machine'

/-- A run executes `n` instructions and has more to do. -/
def GoesOn (invoke : H.Function → Eval H Unit) (procedure : Procedure) (n : Nat)
    (machine machine' : Machine H) : Prop :=
  ∃ pc, Reached invoke procedure n machine (some pc) machine' ∧ pc < procedure.length

/-- The instructions before the last few. -/
theorem Steps.before {n k : Nat} {pc pc' : Option Nat} {machine machine' : Machine H}
    (h : Steps invoke procedure n pc machine pc' machine') (hlt : k < n) :
    ∃ i reached, Steps invoke procedure k pc machine (some i) reached ∧
      i < procedure.length := by
  induction h generalizing k with
  | refl pc machine => omega
  | @cons n pc next pc' machine machine₁ machine' hpc hstep hrest ih =>
    cases k with
    | zero => exact ⟨pc, machine, .refl .., hpc⟩
    | succ k =>
      obtain ⟨i, reached, hsteps, hi⟩ := ih (Nat.lt_of_succ_lt_succ hlt)
      exact ⟨i, reached, .cons hpc hstep hsteps, hi⟩

/-- The loop leaves no choice. -/
theorem Steps.unique {n : Nat} {pc pc₁ pc₂ : Option Nat} {machine machine₁ machine₂ : Machine H}
    (h₁ : Steps invoke procedure n pc machine pc₁ machine₁)
    (h₂ : Steps invoke procedure n pc machine pc₂ machine₂) :
    pc₁ = pc₂ ∧ machine₁ = machine₂ := by
  induction h₁ with
  | refl =>
    cases h₂
    exact ⟨rfl, rfl⟩
  | cons hpc hstep hrest ih =>
    cases h₂ with
    | cons hpc' hstep' hrest' =>
      rw [hstep] at hstep'
      cases hstep'
      exact ih hrest'

/-- Two stretches of a run. -/
theorem Steps.trans {n k : Nat} {pc pc₁ pc₂ : Option Nat} {machine machine₁ machine₂ : Machine H}
    (h : Steps invoke procedure n pc machine pc₁ machine₁)
    (h' : Steps invoke procedure k pc₁ machine₁ pc₂ machine₂) :
    Steps invoke procedure (n + k) pc machine pc₂ machine₂ := by
  induction h with
  | refl =>
    rw [Nat.zero_add]
    exact h'
  | cons hpc hstep hrest ih =>
    rw [Nat.add_right_comm]
    exact .cons hpc hstep (ih h')

/-- One more instruction. -/
theorem Steps.snoc {n pc : Nat} {pc₀ next : Option Nat} {machine reached machine' : Machine H}
    (h : Steps invoke procedure n pc₀ machine (some pc) reached)
    (hpc : pc < procedure.length) (hstep : step invoke procedure pc reached = .ok next machine') :
    Steps invoke procedure (n + 1) pc₀ machine next machine' :=
  h.trans (.cons hpc hstep (.refl ..))

/-- One more instruction of a run. -/
theorem Reached.snoc {n pc : Nat} {next : Option Nat} {machine reached machine' : Machine H}
    (h : Reached invoke procedure n machine (some pc) reached) (hpc : pc < procedure.length)
    (hstep : step invoke procedure pc reached = .ok next machine') :
    Reached invoke procedure (n + 1) machine next machine' := by
  obtain ⟨started, hpush, hsteps⟩ := h
  exact ⟨started, hpush, hsteps.snoc hpc hstep⟩

/-- A run that got as far as `n` instructions had more to do after fewer of them. -/
theorem Reached.before {n k : Nat} {pc : Option Nat} {machine machine' : Machine H}
    (h : Reached invoke procedure n machine pc machine') (hlt : k < n) :
    ∃ reached, GoesOn invoke procedure k machine reached := by
  obtain ⟨started, hpush, hsteps⟩ := h
  obtain ⟨i, reached, hbefore, hi⟩ := hsteps.before hlt
  exact ⟨reached, i, ⟨started, hpush, hbefore⟩, hi⟩

/-- A run is over or faults at some time, unless it has more to do after any number
of instructions. -/
theorem ends_or_faults_or_goesOn {machine started : Machine H}
    (hpush : push returnSentinel machine = .ok () started) (n : Nat) :
    (∃ k machine', EndsAfter invoke procedure k machine machine') ∨
      (∃ k fault machine', FaultsAfter invoke procedure k machine fault machine') ∨
      ∃ reached, GoesOn invoke procedure n machine reached := by
  -- A run that comes to `next` after `k` instructions is over there or goes on.
  have hnext : ∀ {k next reached}, Reached invoke procedure k machine next reached →
      EndsAfter invoke procedure k machine reached ∨ GoesOn invoke procedure k machine reached := by
    intro k next reached hreached
    cases next with
    | none => exact Or.inl ⟨none, hreached, trivial⟩
    | some pc =>
      rcases Nat.lt_or_ge pc procedure.length with hlt | hge
      · exact Or.inr ⟨pc, hreached, hlt⟩
      · exact Or.inl ⟨some pc, hreached, hge⟩
  induction n with
  | zero =>
    rcases hnext ⟨started, hpush, .refl ..⟩ with hends | hgoes
    · exact Or.inl ⟨_, _, hends⟩
    · exact Or.inr (Or.inr ⟨_, hgoes⟩)
  | succ n ih =>
    rcases ih with hends | hfaults | ⟨reached, pc, ⟨started', hpush', hsteps⟩, hpc⟩
    · exact Or.inl hends
    · exact Or.inr (Or.inl hfaults)
    cases hstep : step invoke procedure pc reached with
    | error fault machine' =>
      exact Or.inr (Or.inl ⟨n, fault, machine', pc, reached, ⟨started', hpush', hsteps⟩, hpc,
        hstep⟩)
    | ok next machine' =>
      rcases hnext ⟨started', hpush', hsteps.snoc hpc hstep⟩ with hends | hgoes
      · exact Or.inl ⟨_, _, hends⟩
      · exact Or.inr (Or.inr ⟨_, hgoes⟩)

/-! ## The loop with an allowance -/

/-- What is left to do for a run that goes on at `pc`. -/
def resume (invoke : H.Function → Eval H Unit) (procedure : Procedure) (pc : Option Nat)
    (allowance : Nat) : Eval H (Option Nat) :=
  match pc with
  | none => return some allowance
  | some pc => runFrom invoke procedure allowance pc

section Resume

variable {pc : Nat} {machine machine' : Machine H}

/-- A run that is over leaves its allowance. -/
theorem resume_of_isOver {pc : Option Nat} (h : IsOver procedure pc) (allowance : Nat)
    (machine : Machine H) :
    resume invoke procedure pc allowance machine = .ok (some allowance) machine := by
  cases pc with
  | none => rfl
  | some pc =>
    have hle : procedure.length ≤ pc := h
    cases allowance with
    | zero =>
      rw [resume, runFrom, if_pos hle]
      rfl
    | succ allowance =>
      rw [resume, runFrom, if_pos hle]
      rfl

theorem resume_zero (hpc : pc < procedure.length) :
    resume invoke procedure (some pc) 0 machine = .ok none machine := by
  rw [resume, runFrom, if_neg (Nat.not_le.2 hpc)]
  rfl

theorem resume_succ {next : Option Nat} (hpc : pc < procedure.length)
    (hstep : step invoke procedure pc machine = .ok next machine') (allowance : Nat) :
    resume invoke procedure (some pc) (allowance + 1) machine =
      resume invoke procedure next allowance machine' := by
  rw [resume, runFrom, if_neg (Nat.not_le.2 hpc)]
  simp only [bind, EStateM.bind, hstep]
  cases next with
  | none => rfl
  | some next => rfl

theorem resume_succ_of_fault {fault : Fault} (hpc : pc < procedure.length)
    (hstep : step invoke procedure pc machine = .error fault machine') (allowance : Nat) :
    resume invoke procedure (some pc) (allowance + 1) machine = .error fault machine' := by
  rw [resume, runFrom, if_neg (Nat.not_le.2 hpc)]
  simp only [bind, EStateM.bind, hstep]

end Resume

/-- Every instruction executed costs one of the allowance. -/
theorem Steps.resume_eq {n : Nat} {pc pc' : Option Nat} {machine machine' : Machine H}
    (h : Steps invoke procedure n pc machine pc' machine') (allowance : Nat) :
    resume invoke procedure pc (allowance + n) machine =
      resume invoke procedure pc' allowance machine' := by
  induction h with
  | refl => rfl
  | cons hpc hstep hrest ih => rw [← Nat.add_assoc, resume_succ hpc hstep, ih]

/-! ## Runs with a budget -/

section Run

variable {n budget : Nat} {machine machine' : Machine H}

/-- A run with a budget, from the machine with the sentinel pushed. -/
theorem runWithBudget_eq_of_push {started : Machine H}
    (hpush : push returnSentinel machine = .ok () started) (budget : Nat) :
    runWithBudget invoke procedure budget machine =
      match resume invoke procedure (some 0) budget started with
      | .ok (some left) machine' => .ok (budget - left) machine'
      | .ok none machine' => .error (.budgetExhausted budget) machine'
      | .error fault machine' => .error fault machine' := by
  simp only [runWithBudget, runFor, resume, bind, EStateM.bind, hpush]
  cases runFrom invoke procedure budget 0 started with
  | error fault machine' => rfl
  | ok left machine' =>
    cases left with
    | none => rfl
    | some left => rfl

/-- A run with a budget, from a point that the run without a budget gets to. -/
theorem Reached.runWithBudget_eq {pc : Option Nat}
    (h : Reached invoke procedure n machine pc machine') (hle : n ≤ budget) :
    runWithBudget invoke procedure budget machine =
      match resume invoke procedure pc (budget - n) machine' with
      | .ok (some left) machine' => .ok (budget - left) machine'
      | .ok none machine' => .error (.budgetExhausted budget) machine'
      | .error fault machine' => .error fault machine' := by
  obtain ⟨started, hpush, hsteps⟩ := h
  have hresume := hsteps.resume_eq (budget - n)
  rw [Nat.sub_add_cancel hle] at hresume
  rw [runWithBudget_eq_of_push hpush, hresume]

/-- A budget that is not exceeded does not show. -/
theorem EndsAfter.runWithBudget_eq (h : EndsAfter invoke procedure n machine machine')
    (hle : n ≤ budget) :
    runWithBudget invoke procedure budget machine = .ok n machine' := by
  obtain ⟨pc, hreached, hover⟩ := h
  rw [hreached.runWithBudget_eq hle, resume_of_isOver hover]
  show EStateM.Result.ok (budget - (budget - n)) machine' = _
  rw [Nat.sub_sub_self hle]

/-- A budget stops a run that has more to do. -/
theorem GoesOn.runWithBudget_eq (h : GoesOn invoke procedure budget machine machine') :
    runWithBudget invoke procedure budget machine =
      .error (.budgetExhausted budget) machine' := by
  obtain ⟨pc, hreached, hpc⟩ := h
  rw [hreached.runWithBudget_eq (Nat.le_refl budget), Nat.sub_self, resume_zero hpc]

/-- A fault inside the budget is the fault of the run. -/
theorem FaultsAfter.runWithBudget_eq {fault : Fault}
    (h : FaultsAfter invoke procedure n machine fault machine') (hlt : n < budget) :
    runWithBudget invoke procedure budget machine = .error fault machine' := by
  obtain ⟨pc, reached, hreached, hpc, hstep⟩ := h
  obtain ⟨extra, rfl⟩ : ∃ extra, budget = extra + 1 + n := ⟨budget - n - 1, by omega⟩
  rw [hreached.runWithBudget_eq (by omega), Nat.add_sub_cancel, resume_succ_of_fault hpc hstep]

/-- A run whose sentinel finds no room fails with the fault of the push. -/
theorem runWithBudget_of_push_error {fault : Fault}
    (hpush : push returnSentinel machine = .error fault machine') (budget : Nat) :
    runWithBudget invoke procedure budget machine = .error fault machine' := by
  simp only [runWithBudget, runFor, bind, EStateM.bind, hpush]

theorem run_eq_ok {limit : Nat}
    (h : runWithBudget invoke procedure limit machine = .ok n machine') :
    run invoke limit procedure machine = .ok () machine' := by
  simp only [run, discard, Functor.discard, Functor.mapConst, EStateM.map, Function.comp, h]

theorem run_eq_error {limit : Nat} {fault : Fault}
    (h : runWithBudget invoke procedure limit machine = .error fault machine') :
    run invoke limit procedure machine = .error fault machine' := by
  simp only [run, discard, Functor.discard, Functor.mapConst, EStateM.map, Function.comp, h]

end Run

/-- A run with a budget is the run without one, cut where the budget is used up.

* If the run is over after `n` instructions, a budget of `n` or more is not noticed.
* If it faults in the instruction behind the first `n`, a budget of more than `n` is
  not noticed.
* A smaller budget, and every budget of a run that always has more to do, is exhausted
  with the machine after that many instructions.
* If the sentinel cannot be pushed, there is no budget that helps. -/
theorem runWithBudget_agrees (invoke : H.Function → Eval H Unit) (procedure : Procedure)
    (machine : Machine H) :
    (∀ n machine', EndsAfter invoke procedure n machine machine' →
      (∀ budget, n ≤ budget →
        runWithBudget invoke procedure budget machine = .ok n machine' ∧
          run invoke budget procedure machine = .ok () machine') ∧
      ∀ budget, budget < n → ∃ reached, GoesOn invoke procedure budget machine reached ∧
        runWithBudget invoke procedure budget machine =
          .error (.budgetExhausted budget) reached) ∧
    (∀ n fault machine', FaultsAfter invoke procedure n machine fault machine' →
      (∀ budget, n < budget →
        runWithBudget invoke procedure budget machine = .error fault machine' ∧
          run invoke budget procedure machine = .error fault machine') ∧
      ∀ budget, budget ≤ n → ∃ reached, GoesOn invoke procedure budget machine reached ∧
        runWithBudget invoke procedure budget machine =
          .error (.budgetExhausted budget) reached) ∧
    ((∀ n, ∃ reached, GoesOn invoke procedure n machine reached) →
      ∀ budget, ∃ reached, GoesOn invoke procedure budget machine reached ∧
        runWithBudget invoke procedure budget machine =
          .error (.budgetExhausted budget) reached) ∧
    ∀ fault machine', push returnSentinel machine = .error fault machine' →
      ∀ budget, runWithBudget invoke procedure budget machine = .error fault machine' ∧
        run invoke budget procedure machine = .error fault machine' := by
  refine ⟨?_, ?_, ?_, ?_⟩
  · intro n machine' hends
    refine ⟨fun budget hle => ?_, fun budget hlt => ?_⟩
    · have hrun := hends.runWithBudget_eq hle
      exact ⟨hrun, run_eq_ok hrun⟩
    · obtain ⟨pc, hreached, -⟩ := hends
      obtain ⟨reached, hgoes⟩ := hreached.before hlt
      exact ⟨reached, hgoes, hgoes.runWithBudget_eq⟩
  · intro n fault machine' hfaults
    refine ⟨fun budget hlt => ?_, fun budget hle => ?_⟩
    · have hrun := hfaults.runWithBudget_eq hlt
      exact ⟨hrun, run_eq_error hrun⟩
    · obtain ⟨pc, reached, hreached, hpc, -⟩ := hfaults
      rcases Nat.lt_or_eq_of_le hle with hlt | rfl
      · obtain ⟨earlier, hgoes⟩ := hreached.before hlt
        exact ⟨earlier, hgoes, hgoes.runWithBudget_eq⟩
      · have hgoes : GoesOn invoke procedure budget machine reached := ⟨pc, hreached, hpc⟩
        exact ⟨reached, hgoes, hgoes.runWithBudget_eq⟩
  · intro hforever budget
    obtain ⟨reached, hgoes⟩ := hforever budget
    exact ⟨reached, hgoes, hgoes.runWithBudget_eq⟩
  · intro fault machine' hpush budget
    have hrun : runWithBudget invoke procedure budget machine = .error fault machine' :=
      runWithBudget_of_push_error hpush budget
    exact ⟨hrun, run_eq_error hrun⟩

/-- A procedure that returns. -/
def returningProcedure : Procedure :=
  ⟨"f", .empty, .empty, #[.regImm .mov .eax 5, .retn]⟩

/-- A procedure that calls a function that is not there. -/
def callingProcedure : Procedure :=
  ⟨"f", .empty, .empty, #[.regImm .mov .eax 5, .call "g"]⟩

/-- A procedure that jumps to its own start. -/
def loopingProcedure : Procedure :=
  ⟨"f", .empty, .empty, #[.imm (.jump .always) (codeAddress 0)]⟩

theorem runWithBudget_agrees_smallProcedures :
    ∃ machine full : Machine ⟨Unit, Unit⟩,
      (∃ returned reached,
        runWithBudget (fun _ => pure ()) returningProcedure 2 machine = .ok 2 returned ∧
        runWithBudget (fun _ => pure ()) returningProcedure 1 machine =
          .error (.budgetExhausted 1) reached) ∧
      (∃ faulted reached,
        runWithBudget (fun _ => pure ()) callingProcedure 2 machine =
          .error (.unresolvedCall "g") faulted ∧
        runWithBudget (fun _ => pure ()) callingProcedure 1 machine =
          .error (.budgetExhausted 1) reached) ∧
      (∃ reached, runWithBudget (fun _ => pure ()) loopingProcedure 1000000 machine =
        .error (.budgetExhausted 1000000) reached) ∧
      runWithBudget (fun _ => pure ()) returningProcedure 0 full =
        .error (.stackOverflow 0) full := by
  let machine : Machine ⟨Unit, Unit⟩ := build ⟨16, 4⟩ ()
  let full : Machine ⟨Unit, Unit⟩ := { machine with registers := .zero }
  have hlow : machine.stack.base.toNat + 4 ≤ machine.registers.esp.toNat := by decide
  have hhigh : machine.registers.esp.toNat ≤
      machine.stack.base.toNat + machine.stack.region.size := by decide
  let started := machine.pushed returnSentinel
  have hpush : push returnSentinel machine = .ok () started := push_eq_ok hlow hhigh _
  have hload := Stack.loadWord?_withWord hlow hhigh returnSentinel
  let moved := { started with registers := started.registers.set .eax 5 }
  have hreturns : EndsAfter (fun _ => pure ()) returningProcedure 2 machine moved.popped :=
    ⟨none, ⟨started, hpush, .cons (by decide) (step_regImm rfl)
      (.cons (by decide) (step_retn rfl hload) (.refl ..))⟩, trivial⟩
  have hcalls : FaultsAfter (fun _ => pure ()) callingProcedure 1 machine (.unresolvedCall "g")
      moved :=
    ⟨1, moved, ⟨started, hpush, .cons (by decide) (step_regImm rfl) (.refl ..)⟩, by decide, rfl⟩
  have hloops : ∀ n, GoesOn (fun _ => pure ()) loopingProcedure n machine started := by
    intro n
    refine ⟨0, ⟨started, hpush, ?_⟩, by decide⟩
    induction n with
    | zero => exact .refl ..
    | succ n ih => exact .cons (by decide) (step_immJump rfl (by decide) (by decide)) ih
  have hfull : push returnSentinel full = .error (.stackOverflow 0) full := rfl
  obtain ⟨hends, -, -, -⟩ := runWithBudget_agrees (fun _ => pure ()) returningProcedure machine
  obtain ⟨-, hfaults, -, -⟩ := runWithBudget_agrees (fun _ => pure ()) callingProcedure machine
  obtain ⟨-, -, hforever, -⟩ := runWithBudget_agrees (fun _ => pure ()) loopingProcedure machine
  obtain ⟨-, -, -, hnone⟩ := runWithBudget_agrees (fun _ => pure ()) returningProcedure full
  obtain ⟨hreturned, hshort⟩ := hends _ _ hreturns
  obtain ⟨hfaulted, hearly⟩ := hfaults _ _ _ hcalls
  obtain ⟨reached, -, hreached⟩ := hshort 1 (by decide)
  obtain ⟨reached', -, hreached'⟩ := hearly 1 (by decide)
  obtain ⟨looping, -, hlooping⟩ := hforever (fun n => ⟨started, hloops n⟩) 1000000
  exact ⟨machine, full, ⟨_, reached, (hreturned 2 (by decide)).1, hreached⟩,
    ⟨_, reached', (hfaulted 2 (by decide)).1, hreached'⟩, ⟨looping, hlooping⟩,
    (hnone _ _ hfull 0).1⟩

end X86Listing.Machine
