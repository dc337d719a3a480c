import Mathlib.Logic.Relation
import X86Listing.Proofs.Machine.Budget
import X86Listing.Proofs.Machine.Faults

/-!
# Everything is made of operations

The stack and the data segment of a machine are changed by a few operations only.
`Change` lists them, and a machine `Operates` from one state to another by any number
of them.  What the operations keep is therefore kept by whatever a machine does.

* `Acts` says that a computation does nothing but operate on the machine.  Sequences
  have the property if their parts do (`Acts.bind`).
* `acts_step` is about instructions.  A host function is arbitrary code, so this needs
  to know that host functions act as well.
* `acts_runFrom` is the induction over the instructions of a run, from which
  `acts_runWithBudget` and `acts_call` follow.
* `Reachable` holds of the machines that instructions, runs, calls and operations lead
  to.  By `Reachable.operates` the operations alone lead to all of them.
-/

namespace X86Listing.Machine

variable {H : Host} {α β : Type}

/-! ## Operations -/

/-- One operation on a machine, whether it succeeds or not. -/
inductive Change : Machine H → Machine H → Prop where
  /-- The registers, the procedures, and the host functions with their state can be
  anything. -/
  | free (machine : Machine H) (registers : RegisterFile) (procedures : ProcedureStore)
      (functions : NameMap H.Function) (host : H.State) :
      Change machine { machine with registers, procedures, functions, host }
  | reset {machine machine' : Machine H} (h : Leaves reset machine machine') :
      Change machine machine'
  | push {machine machine' : Machine H} (word : UInt32)
      (h : Leaves (push word) machine machine') : Change machine machine'
  | pop {machine machine' : Machine H} (h : Leaves pop machine machine') :
      Change machine machine'
  | storeWord {machine machine' : Machine H} (address value : UInt32)
      (h : Leaves (storeWord address value) machine machine') : Change machine machine'
  | storeByte {machine machine' : Machine H} (address : UInt32) (value : UInt8)
      (h : Leaves (storeByte address value) machine machine') : Change machine machine'
  /-- Bytes are declared in the data segment. -/
  | declare {machine : Machine H} {data : DataSegment} {name : String} {bytes : List UInt8}
      {size : Nat} (h : machine.data.add name bytes size = .ok data) :
      Change machine { machine with data }
  | compile {machine machine' : Machine H} (source : String)
      (h : Leaves (compile source) machine machine') : Change machine machine'

/-- Any number of operations. -/
abbrev Operates : Machine H → Machine H → Prop :=
  Relation.ReflTransGen Change

/-! ## Computations made of operations -/

/-- The computation only operates on the machine. -/
def Acts (x : Eval H α) : Prop :=
  ∀ machine machine', Leaves x machine machine' → Operates machine machine'

theorem Reads.acts {x : Eval H α} (h : Reads x) : Acts x := by
  intro machine machine' hleaves
  rcases hleaves with ⟨a, hok⟩ | ⟨fault, herror⟩
  · rw [h.2 _ _ _ hok]
  · rw [(h.1 _ _ _ herror).1]

theorem Acts.bind {x : Eval H α} {f : α → Eval H β} (hx : Acts x) (hf : ∀ a, Acts (f a)) :
    Acts (x >>= f) := by
  intro machine machine' hleaves
  rcases bind_leaves hleaves with hfirst | ⟨a, machine₁, hok, hrest⟩
  · exact hx _ _ hfirst
  · have hfirst : Operates machine machine₁ := hx _ _ (Or.inl ⟨a, hok⟩)
    exact hfirst.trans (hf a _ _ hrest)

theorem acts_pure (a : α) : Acts (pure a : Eval H α) :=
  (reads_pure a).acts

theorem acts_throw (fault : Fault) : Acts (throw fault : Eval H α) := by
  intro machine machine' hleaves
  rw [eq_of_leaves_error rfl hleaves]

theorem acts_modifyRegisters (f : RegisterFile → RegisterFile) :
    Acts (modifyRegisters f : Eval H Unit) := by
  intro machine machine' hleaves
  rw [eq_of_leaves_ok rfl hleaves]
  exact .single (.free machine (f machine.registers) machine.procedures machine.functions
    machine.host)

theorem acts_push (word : UInt32) : Acts (push word : Eval H Unit) :=
  fun _ _ h => .single (.push word h)

theorem acts_pop : Acts (pop : Eval H UInt32) :=
  fun _ _ h => .single (.pop h)

theorem acts_storeWord (address value : UInt32) :
    Acts (storeWord address value : Eval H Unit) :=
  fun _ _ h => .single (.storeWord address value h)

/-! ## Instructions -/

section Step

variable {procedure : Procedure} {pc : Nat}

theorem acts_executeReg (op : RegOp) (r0 : Reg) :
    Acts (executeReg procedure pc op r0 : Eval H (Option Nat)) := by
  refine (reads_readRegister r0).acts.bind fun value => ?_
  cases op with
  | push => exact (acts_push value).bind fun _ => acts_pure _
  | pop => exact acts_pop.bind fun _ => .bind (acts_modifyRegisters _) fun _ => acts_pure _
  | not | inc | dec => exact Acts.bind (acts_modifyRegisters _) fun _ => acts_pure _
  | jump condition => exact (reads_branch pc condition value).acts

theorem acts_executeImm (op : ImmOp) (v0 : UInt32) :
    Acts (executeImm procedure pc op v0 : Eval H (Option Nat)) := by
  cases op with
  | push => exact (acts_push v0).bind fun _ => acts_pure _
  | jump condition => exact (reads_branch pc condition v0).acts

theorem acts_executeLoad (op : LoadOp) (r0 : Reg) (mem : MemoryOperand) :
    Acts (executeLoad op r0 mem : Eval H Unit) :=
  (reads_address mem).acts.bind fun _ => (reads_loadWord _).acts.bind fun _ =>
    acts_modifyRegisters _

theorem acts_executeWide (op : WideOp) (mem : MemoryOperand) :
    Acts (executeWide op mem : Eval H Unit) := by
  refine (reads_address mem).acts.bind fun _ => (reads_loadWord _).acts.bind fun word =>
    reads_get.acts.bind fun machine => ?_
  cases op with
  | mul => exact acts_modifyRegisters _
  | div =>
    simp only
    cases divide? (machine.registers.value .edx) (machine.registers.value .eax) word with
    | none => exact acts_throw _
    | some result => exact acts_modifyRegisters _

theorem acts_executeStore (op : StoreOp) (mem : MemoryOperand) (word : UInt32) :
    Acts (executeStore op mem word : Eval H Unit) := by
  refine (reads_address mem).acts.bind fun address => ?_
  cases op with
  | mov => exact acts_storeWord address word
  | cmp => exact (reads_loadWord address).acts.bind fun _ => acts_modifyRegisters _

theorem acts_executePlain (instruction : Instruction) :
    Acts (executePlain instruction : Eval H Unit) := by
  cases instruction with
  | regReg op r0 r1 => exact (reads_readRegister r1).acts.bind fun _ => acts_modifyRegisters _
  | regImm | shrd | lea =>
    simp only [executePlain, executePair]
    exact acts_modifyRegisters _
  | regMem op r0 mem => exact acts_executeLoad op r0 mem
  | mem op mem => exact acts_executeWide op mem
  | memReg op mem r1 =>
    exact (reads_readRegister r1).acts.bind fun word => acts_executeStore op mem word
  | memImm op mem v1 => exact acts_executeStore op mem v1
  | retn | call | reg | imm | jumpTable => exact acts_pure ()

variable {invoke : H.Function → Eval H Unit} (hinvoke : ∀ function, Acts (invoke function))
include hinvoke

/-- An instruction only operates on the machine. -/
theorem acts_step (procedure : Procedure) (pc : Nat) : Acts (step invoke procedure pc) := by
  unfold step
  cases procedure.instruction? pc with
  | none => exact acts_throw _
  | some instruction =>
    simp only
    cases instruction with
    | retn =>
      refine acts_pop.bind fun address => ?_
      split
      · exact acts_pure _
      · exact acts_throw _
    | call target =>
      refine reads_get.acts.bind fun machine => ?_
      cases machine.functions.get? target with
      | none => exact acts_throw _
      | some function => exact (hinvoke function).bind fun _ => acts_pure _
    | reg op r0 => exact acts_executeReg op r0
    | imm op v0 => exact acts_executeImm op v0
    | jumpTable condition v0 r0 v1 =>
      refine reads_get.acts.bind fun machine => ?_
      simp only
      split
      · exact (reads_loadWord _).acts.bind fun target => (reads_jump target).acts
      · exact acts_pure _
    | regReg | shrd | regImm | regMem | lea | mem | memReg | memImm =>
      exact (acts_executePlain _).bind fun _ => acts_pure _

/-! ## Runs -/

theorem acts_runFrom (procedure : Procedure) (allowance pc : Nat) :
    Acts (runFrom invoke procedure allowance pc) := by
  induction allowance generalizing pc with
  | zero => exact acts_pure _
  | succ allowance ih =>
    rw [runFrom]
    split
    · exact acts_pure _
    · refine (acts_step hinvoke procedure pc).bind fun next => ?_
      cases next with
      | none => exact acts_pure _
      | some next => exact ih next

theorem acts_runWithBudget (procedure : Procedure) (budget : Nat) :
    Acts (runWithBudget invoke procedure budget) := by
  have hrun : Acts (runFor invoke procedure budget) :=
    (acts_push returnSentinel).bind fun _ => acts_runFrom hinvoke procedure budget 0
  refine hrun.bind fun left => ?_
  cases left with
  | none => exact acts_throw _
  | some left => exact acts_pure _

theorem acts_run (limit : Nat) (procedure : Procedure) :
    Acts (run invoke limit procedure) := by
  intro machine machine' hleaves
  apply acts_runWithBudget hinvoke procedure limit
  cases hrun : runWithBudget invoke procedure limit machine with
  | ok n machine₁ =>
    rw [eq_of_leaves_ok (run_eq_ok hrun) hleaves]
    exact Or.inl ⟨n, hrun⟩
  | error fault machine₁ =>
    rw [eq_of_leaves_error (run_eq_error hrun) hleaves]
    exact Or.inr ⟨fault, hrun⟩

theorem acts_call (limit : Nat) (name : String) : Acts (call invoke limit name) := by
  refine reads_get.acts.bind fun machine => ?_
  cases machine.procedures.get? name with
  | some procedure => exact acts_run hinvoke limit procedure
  | none =>
    refine reads_get.acts.bind fun machine => ?_
    cases machine.functions.get? name with
    | some function => exact hinvoke function
    | none => exact acts_throw _

end Step

/-! ## Reachable machines -/

/-- The machines that operations, instructions, runs and calls lead to, from a new
machine of given sizes.  Each may have ended in a fault. -/
inductive Reachable (invoke : H.Function → Eval H Unit) (config : Config) :
    Machine H → Prop where
  | new {machine : Machine H} (host : H.State) (h : new config host = .ok machine) :
      Reachable invoke config machine
  | change {machine machine' : Machine H} (before : Reachable invoke config machine)
      (h : Change machine machine') : Reachable invoke config machine'
  | step {machine machine' : Machine H} (before : Reachable invoke config machine)
      (procedure : Procedure) (pc : Nat) (h : Leaves (step invoke procedure pc) machine machine') :
      Reachable invoke config machine'
  | run {machine machine' : Machine H} (before : Reachable invoke config machine)
      (procedure : Procedure) (budget : Nat)
      (h : Leaves (runWithBudget invoke procedure budget) machine machine') :
      Reachable invoke config machine'
  | call {machine machine' : Machine H} (before : Reachable invoke config machine)
      (limit : Nat) (name : String) (h : Leaves (call invoke limit name) machine machine') :
      Reachable invoke config machine'

/-- A machine is new only if its sizes fit the address map. -/
theorem new_eq_ok_iff {config : Config} {host : H.State} {machine : Machine H} :
    new config host = .ok machine ↔ config.validate = .ok () ∧ machine = build config host := by
  unfold new
  constructor
  · intro h
    obtain ⟨_, hvalid, hbuild⟩ := except_bind_eq_ok h
    cases hbuild
    exact ⟨hvalid, rfl⟩
  · rintro ⟨hvalid, rfl⟩
    rw [hvalid]
    rfl

/-- Operations alone lead to every reachable machine. -/
theorem Reachable.operates {invoke : H.Function → Eval H Unit}
    (hinvoke : ∀ function, Acts (invoke function)) {config : Config} {machine : Machine H}
    (h : Reachable invoke config machine) :
    config.validate = .ok () ∧ ∃ host, Operates (build config host) machine := by
  have hmore : ∀ {machine machine' : Machine H},
      (config.validate = .ok () ∧ ∃ host, Operates (build config host) machine) →
      Operates machine machine' →
      config.validate = .ok () ∧ ∃ host, Operates (build config host) machine' := by
    intro machine machine' hbefore hafter
    obtain ⟨hvalid, host, hoperates⟩ := hbefore
    exact ⟨hvalid, host, hoperates.trans hafter⟩
  induction h with
  | new host hnew =>
    obtain ⟨hvalid, rfl⟩ := new_eq_ok_iff.1 hnew
    exact ⟨hvalid, host, .refl⟩
  | change _ hchange ih => exact hmore ih (.single hchange)
  | step _ procedure pc hleaves ih => exact hmore ih (acts_step hinvoke procedure pc _ _ hleaves)
  | run _ procedure budget hleaves ih =>
    exact hmore ih (acts_runWithBudget hinvoke procedure budget _ _ hleaves)
  | call _ limit name hleaves ih => exact hmore ih (acts_call hinvoke limit name _ _ hleaves)

end X86Listing.Machine
