import X86Listing.Machine.Step
import X86Listing.Proofs.Answer
import X86Listing.Proofs.Machine.Stack

/-!
# What a fault leaves behind

An instruction reads, moves the stack top, writes registers and writes memory, and
each access to memory can fault.  `step_fault_atomic` says that a fault finds nothing
done yet.  A return to a wrong address is the one exception: it has popped that
address.

* `Atomic` is the property of a computation that its faults change nothing.  A
  sequence has it if everything before its last fallible part only reads
  (`Reads.bind`), or if nothing can fault behind its first part (`Atomic.bind`).
* The operations of the machine and the parts of an instruction have the property
  one by one, put together by these two rules.
* `retn_fault` is about the exception.  The address that it pops was read from the
  stack, which bounds the new stack top.
-/

namespace X86Listing

/-- Is this the fault of a return to a wrong address? -/
def Fault.isReturn : Fault → Bool
  | corruptReturn _ => true
  | _ => false

namespace Machine

variable {H : Host} {α β : Type}

/-! ## Computations whose faults change nothing -/

/-- A fault leaves the machine as it was, and it is not that of a return. -/
def Atomic (x : Eval H α) : Prop :=
  ∀ machine fault machine', x machine = .error fault machine' →
    machine' = machine ∧ fault.isReturn = false

/-- The machine stays as it was, with a fault or without. -/
def Reads (x : Eval H α) : Prop :=
  Atomic x ∧ ∀ machine a machine', x machine = .ok a machine' → machine' = machine

/-- There is no fault. -/
def Total (x : Eval H α) : Prop :=
  ∀ machine fault machine', x machine ≠ .error fault machine'

theorem Total.atomic {x : Eval H α} (h : Total x) : Atomic x :=
  fun machine fault machine' hx => absurd hx (h machine fault machine')

theorem Total.bind {x : Eval H α} {f : α → Eval H β} (hx : Total x) (hf : ∀ a, Total (f a)) :
    Total (x >>= f) := by
  intro machine fault machine' h
  rcases bind_eq_error h with hfirst | ⟨a, machine₁, -, hrest⟩
  · exact hx _ _ _ hfirst
  · exact hf a _ _ _ hrest

/-- Nothing was done before the second part, if the first one only reads. -/
theorem Reads.bind {x : Eval H α} {f : α → Eval H β} (hx : Reads x) (hf : ∀ a, Atomic (f a)) :
    Atomic (x >>= f) := by
  intro machine fault machine' h
  rcases bind_eq_error h with hfirst | ⟨a, machine₁, hok, hrest⟩
  · exact hx.1 _ _ _ hfirst
  · obtain rfl := hx.2 _ _ _ hok
    exact hf a _ _ _ hrest

/-- What comes behind the first part does not matter, if it does not fault. -/
theorem Atomic.bind {x : Eval H α} {f : α → Eval H β} (hx : Atomic x) (hf : ∀ a, Total (f a)) :
    Atomic (x >>= f) := by
  intro machine fault machine' h
  rcases bind_eq_error h with hfirst | ⟨a, machine₁, -, hrest⟩
  · exact hx _ _ _ hfirst
  · exact absurd hrest (hf a _ _ _)

theorem total_pure (a : α) : Total (pure a : Eval H α) := by
  intro machine fault machine' h
  cases h

theorem reads_pure (a : α) : Reads (pure a : Eval H α) := by
  refine ⟨(total_pure a).atomic, ?_⟩
  intro machine b machine' h
  cases h
  rfl

theorem reads_throw {fault : Fault} (hfault : fault.isReturn = false) :
    Reads (throw fault : Eval H α) := by
  constructor
  · intro machine fault' machine' h
    cases h
    exact ⟨rfl, hfault⟩
  · intro machine a machine' h
    cases h

theorem reads_get : Reads (get : Eval H (Machine H)) := by
  constructor
  · intro machine fault machine' h
    cases h
  · intro machine a machine' h
    cases h
    rfl

theorem Reads.bind_reads {x : Eval H α} {f : α → Eval H β} (hx : Reads x)
    (hf : ∀ a, Reads (f a)) : Reads (x >>= f) := by
  refine ⟨hx.bind fun a => (hf a).1, ?_⟩
  intro machine b machine' h
  obtain ⟨a, machine₁, hok, hrest⟩ := bind_eq_ok h
  obtain rfl := hx.2 _ _ _ hok
  exact (hf a).2 _ _ _ hrest

/-! ## The operations of the machine -/

theorem isReturn_of_push {stack : Stack} {esp word : UInt32} {fault : Fault}
    (h : stack.push esp word = .error fault) : fault.isReturn = false := by
  unfold Stack.push at h
  split at h
  · cases h
    rfl
  · split at h
    · cases h
      rfl
    · cases h

theorem isReturn_of_pop {stack : Stack} {esp : UInt32} {fault : Fault}
    (h : stack.pop esp = .error fault) : fault.isReturn = false := by
  unfold Stack.pop Stack.top at h
  split at h
  · cases h
    rfl
  · simp only at h
    split at h
    · cases h
      rfl
    · split at h
      · cases h
        rfl
      · cases h

theorem total_set (machine : Machine H) : Total (set machine : Eval H PUnit) := by
  intro machine₁ fault machine' h
  cases h

theorem total_modifyRegisters (f : RegisterFile → RegisterFile) :
    Total (modifyRegisters f : Eval H Unit) := by
  intro machine fault machine' h
  cases h

theorem total_writeRegister (reg : Reg) (value : UInt32) :
    Total (writeRegister reg value : Eval H Unit) :=
  total_modifyRegisters _

theorem reads_readRegister (reg : Reg) : Reads (readRegister reg : Eval H UInt32) :=
  reads_get.bind_reads fun _ => reads_pure _

theorem reads_address (mem : MemoryOperand) : Reads (address mem : Eval H UInt32) :=
  reads_get.bind_reads fun _ => reads_pure _

theorem reads_loadWord (address : UInt32) : Reads (loadWord address : Eval H UInt32) := by
  refine reads_get.bind_reads fun machine => ?_
  cases machine.wordAt? address with
  | none => exact reads_throw rfl
  | some word => exact reads_pure _

theorem atomic_storeWord (address value : UInt32) :
    Atomic (storeWord address value : Eval H Unit) := by
  refine reads_get.bind fun machine => ?_
  cases machine.storeWord? address value with
  | none => exact (reads_throw rfl).1
  | some machine' => exact (total_set _).atomic

theorem storeWord_of_eq_ok {address word : UInt32} {machine machine' : Machine H}
    (h : storeWord address word machine = .ok () machine') :
    machine.storeWord? address word = some machine' := by
  simp only [storeWord, bind, EStateM.bind, get_eq_ok] at h
  cases hstore : machine.storeWord? address word with
  | none =>
    rw [hstore] at h
    cases h
  | some stored =>
    rw [hstore] at h
    cases h
    rfl

theorem atomic_push (word : UInt32) : Atomic (push word : Eval H Unit) := by
  refine reads_get.bind fun machine => ?_
  cases hpush : machine.stack.push machine.registers.esp word with
  | error fault => exact (reads_throw (isReturn_of_push hpush)).1
  | ok result => exact (total_set _).atomic

theorem atomic_pop : Atomic (pop : Eval H UInt32) := by
  refine reads_get.bind fun machine => ?_
  cases hpop : machine.stack.pop machine.registers.esp with
  | error fault => exact (reads_throw (isReturn_of_pop hpop)).1
  | ok result => exact ((total_set _).bind fun _ => total_pure _).atomic

/-! ## The parts of an instruction -/

variable {procedure : Procedure}

theorem reads_jump (target : UInt32) : Reads (jump procedure target : Eval H (Option Nat)) := by
  unfold jump
  cases procedure.indexOf? target with
  | none => exact reads_throw rfl
  | some index => exact reads_pure _

theorem reads_branch (pc : Nat) (condition : Condition) (target : UInt32) :
    Reads (branch procedure pc condition target : Eval H (Option Nat)) := by
  refine reads_get.bind_reads fun machine => ?_
  split
  · exact reads_jump target
  · exact reads_pure _

theorem atomic_executeReg (pc : Nat) (op : RegOp) (r0 : Reg) :
    Atomic (executeReg procedure pc op r0 : Eval H (Option Nat)) := by
  refine (reads_readRegister r0).bind fun value => ?_
  cases op with
  | push => exact (atomic_push value).bind fun _ => total_pure _
  | pop => exact atomic_pop.bind fun _ => .bind (total_writeRegister r0 _) fun _ => total_pure _
  | not | inc | dec =>
    exact (Total.bind (total_writeRegister r0 _) fun _ => total_pure _).atomic
  | jump condition => exact (reads_branch pc condition value).1

theorem atomic_executeImm (pc : Nat) (op : ImmOp) (v0 : UInt32) :
    Atomic (executeImm procedure pc op v0 : Eval H (Option Nat)) := by
  cases op with
  | push => exact (atomic_push v0).bind fun _ => total_pure _
  | jump condition => exact (reads_branch pc condition v0).1

theorem atomic_executeLoad (op : LoadOp) (r0 : Reg) (mem : MemoryOperand) :
    Atomic (executeLoad op r0 mem : Eval H Unit) :=
  (reads_address mem).bind fun _ => (reads_loadWord _).bind fun _ =>
    (total_modifyRegisters _).atomic

/-- The division is tried on the registers before any of them is written. -/
theorem atomic_executeWide (op : WideOp) (mem : MemoryOperand) :
    Atomic (executeWide op mem : Eval H Unit) := by
  refine (reads_address mem).bind fun _ => (reads_loadWord _).bind fun word =>
    reads_get.bind fun machine => ?_
  cases op with
  | mul => exact (total_modifyRegisters _).atomic
  | div =>
    simp only
    cases divide? (machine.registers.value .edx) (machine.registers.value .eax) word with
    | none => exact (reads_throw rfl).1
    | some result => exact (total_modifyRegisters _).atomic

theorem atomic_executeStore (op : StoreOp) (mem : MemoryOperand) (word : UInt32) :
    Atomic (executeStore op mem word : Eval H Unit) := by
  refine (reads_address mem).bind fun address => ?_
  cases op with
  | mov => exact atomic_storeWord address word
  | cmp => exact (reads_loadWord address).bind fun _ => (total_modifyRegisters _).atomic

theorem atomic_executePlain (instruction : Instruction) :
    Atomic (executePlain instruction : Eval H Unit) := by
  cases instruction with
  | regReg op r0 r1 =>
    exact (reads_readRegister r1).bind fun _ => (total_modifyRegisters _).atomic
  | regImm | shrd | lea =>
    simp only [executePlain, executePair]
    exact (total_modifyRegisters _).atomic
  | regMem op r0 mem => exact atomic_executeLoad op r0 mem
  | mem op mem => exact atomic_executeWide op mem
  | memReg op mem r1 =>
    exact (reads_readRegister r1).bind fun word => atomic_executeStore op mem word
  | memImm op mem v1 => exact atomic_executeStore op mem v1
  | retn | call | reg | imm | jumpTable => exact (total_pure ()).atomic

theorem atomic_jumpTable (invoke : H.Function → Eval H Unit) (pc : Nat) (condition : Condition)
    (v0 : UInt32) (r0 : Reg) (v1 : UInt32) :
    Atomic (execute invoke procedure pc (.jumpTable condition v0 r0 v1)) := by
  refine reads_get.bind fun machine => ?_
  simp only
  split
  · exact (reads_loadWord _).bind fun target => (reads_jump target).1
  · exact (total_pure _).atomic

/-- A return that faults could not pop an address, or it has popped one that is not
the sentinel. -/
theorem retn_fault {invoke : H.Function → Eval H Unit} {pc : Nat} {machine machine' : Machine H}
    {fault : Fault} (h : execute invoke procedure pc .retn machine = .error fault machine') :
    machine' = machine ∧ fault.isReturn = false ∨
      ∃ address, fault = .corruptReturn address ∧ machine' = machine.popped ∧
        machine.stack.region.loadWord? machine.registers.esp = some address := by
  rcases bind_eq_error h with hpop | ⟨address, machine₁, hpop, hcheck⟩
  · exact Or.inl (atomic_pop _ _ _ hpop)
  · obtain ⟨rfl, hload⟩ := pop_of_eq_ok hpop
    by_cases haddress : address = returnSentinel
    · rw [if_pos haddress] at hcheck
      cases hcheck
    · rw [if_neg haddress] at hcheck
      cases hcheck
      exact Or.inr ⟨address, rfl, rfl, hload⟩

/-! ## Instructions -/

/-- The fault of an instruction is the fault of the host function that it calls. -/
def IsHostFault (invoke : H.Function → Eval H Unit) (procedure : Procedure) (pc : Nat)
    (machine : Machine H) (fault : Fault) (machine' : Machine H) : Prop :=
  ∃ target function, procedure.instruction? pc = some (.call target) ∧
    machine.functions.get? target = some function ∧
    invoke function machine = .error fault machine'

/-- The two ways in which an instruction can fault by itself. -/
theorem step_eq_error {invoke : H.Function → Eval H Unit} {pc : Nat}
    {machine machine' : Machine H} {fault : Fault}
    (h : step invoke procedure pc machine = .error fault machine')
    (hhost : ¬ IsHostFault invoke procedure pc machine fault machine') :
    machine' = machine ∧ fault.isReturn = false ∨
      ∃ address, fault = .corruptReturn address ∧ machine' = machine.popped ∧
        machine.stack.region.loadWord? machine.registers.esp = some address := by
  unfold step at h
  cases hpc : procedure.instruction? pc with
  | none =>
    rw [hpc] at h
    cases h
    exact Or.inl ⟨rfl, rfl⟩
  | some instruction =>
    rw [hpc] at h
    replace h : execute invoke procedure pc instruction machine = .error fault machine' := h
    cases instruction with
    | retn => exact retn_fault h
    | call target =>
      left
      rcases bind_eq_error h with hget | ⟨found, machine₁, hget, hcall⟩
      · cases hget
      cases hget
      cases hfunction : machine.functions.get? target with
      | none =>
        rw [hfunction] at hcall
        cases hcall
        exact ⟨rfl, rfl⟩
      | some function =>
        rw [hfunction] at hcall
        rcases bind_eq_error hcall with hinvoke | ⟨_, _, -, hreturn⟩
        · exact absurd ⟨target, function, hpc, hfunction, hinvoke⟩ hhost
        · cases hreturn
    | reg op r0 => exact Or.inl (atomic_executeReg pc op r0 _ _ _ h)
    | imm op v0 => exact Or.inl (atomic_executeImm pc op v0 _ _ _ h)
    | jumpTable condition v0 r0 v1 =>
      exact Or.inl (atomic_jumpTable invoke pc condition v0 r0 v1 _ _ _ h)
    | regReg | shrd | regImm | regMem | lea | mem | memReg | memImm =>
      exact Or.inl ((atomic_executePlain _).bind (fun _ => total_pure _) _ _ _ h)

/-- An instruction that faults by itself has changed nothing, unless it is a return
to a wrong address.  Such a return has moved the stack top up by one word, inside the
stack. -/
theorem step_fault_atomic {invoke : H.Function → Eval H Unit} {procedure : Procedure} {pc : Nat}
    {machine machine' : Machine H} {fault : Fault}
    (h : step invoke procedure pc machine = .error fault machine')
    (hhost : ¬ IsHostFault invoke procedure pc machine fault machine') :
    match fault with
    | .corruptReturn _ =>
      machine' = { machine with
        registers := machine.registers.setEsp (machine.registers.esp + 4) } ∧
      machine.registers.esp.toNat + 4 ≤ machine.stack.base.toNat + machine.stack.region.size ∧
      (machine.stack.Fits →
        machine'.registers.esp.toNat = machine.registers.esp.toNat + 4 ∧
        machine'.registers.esp ≤ machine.stack.limit)
    | _ => machine' = machine := by
  rcases step_eq_error h hhost with ⟨rfl, hfault⟩ | ⟨address, rfl, rfl, hload⟩
  · cases fault with
    | corruptReturn address => cases hfault
    | _ => rfl
  · have hbounds := (Region.bounds_of_loadWord? hload).2
    refine ⟨rfl, hbounds, fun hfits => ?_⟩
    have hesp : (machine.registers.esp + 4).toNat = machine.registers.esp.toNat + 4 :=
      toNat_add_ofNat (Nat.lt_of_le_of_lt hbounds hfits)
    have htop : machine.popped.registers.esp = machine.registers.esp + 4 :=
      RegisterFile.slot_setSlot_self ..
    rw [htop, UInt32.le_iff_toNat_le, hesp, hfits.toNat_limit]
    exact ⟨rfl, hbounds⟩

/-- A procedure that divides by a word of the stack, pushes once more than there is
room, and returns. -/
def faultyProcedure : Procedure :=
  ⟨"f", .empty, .empty, #[.mem .div ⟨.esp, 0⟩, .imm .push 1, .retn]⟩

/-- A machine of four slots with its stack full of zeros. -/
def fullMachine : Machine ⟨Unit, Unit⟩ :=
  { build ⟨16, 4⟩ () with registers := RegisterFile.zero.setEsp stackBase }

theorem step_fault_atomic_faultyProcedure :
    (∃ machine', step (fun _ => pure ()) faultyProcedure 0 fullMachine =
      .error .divideByZero machine' ∧ machine' = fullMachine) ∧
    (∃ machine', step (fun _ => pure ()) faultyProcedure 1 fullMachine =
      .error (.stackOverflow stackBase) machine' ∧ machine' = fullMachine) ∧
    ∃ machine', step (fun _ => pure ()) faultyProcedure 2 fullMachine =
      .error (.corruptReturn 0) machine' ∧ machine'.registers.esp.toNat = stackBase.toNat + 4 ∧
        machine'.stack = fullMachine.stack := by
  have hhost (pc : Nat) (fault : Fault) (machine' : Machine ⟨Unit, Unit⟩) :
      ¬ IsHostFault (fun _ => pure ()) faultyProcedure pc fullMachine fault machine' := by
    rintro ⟨target, function, -, hfunction, -⟩
    cases hfunction
  have hdiv : step (fun _ => pure ()) faultyProcedure 0 fullMachine =
      .error .divideByZero fullMachine := rfl
  have hpush : step (fun _ => pure ()) faultyProcedure 1 fullMachine =
      .error (.stackOverflow stackBase) fullMachine := rfl
  have hretn : step (fun _ => pure ()) faultyProcedure 2 fullMachine =
      .error (.corruptReturn 0) fullMachine.popped := rfl
  obtain ⟨hmachine, -, hesp⟩ := step_fault_atomic hretn (hhost 2 _ _)
  refine ⟨⟨_, hdiv, step_fault_atomic hdiv (hhost 0 _ _)⟩,
    ⟨_, hpush, step_fault_atomic hpush (hhost 1 _ _)⟩,
    ⟨_, hretn, (hesp (Stack.fits_new 4 stackBase)).1, ?_⟩⟩
  rw [hmachine]

end Machine

end X86Listing
