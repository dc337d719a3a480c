import X86Listing.Proofs.Machine.FlatMemory
import X86Listing.Session.Perform

/-!
# The memory of a session

A host function of a session is a list of commands, and a command can run code that
calls host functions.  However deep such calls go, a session only operates on its
machine.  So its memory stays one flat map of bytes (`execAll_flatMemory`).

* `acts_perform` goes through the commands.  What they call is taken to act.
* `acts_invoke` is the induction over the depth of the calls, and for each depth over
  the commands of a host function.
* `execAll_operates` is the induction over the commands of a session.
-/

namespace X86Listing.Session

open Machine

/-! ## What only commands do -/

section Host

variable {H : Host} {α : Type}

theorem acts_arg (depth : Nat) : Acts (arg depth : Eval H UInt32) := by
  refine reads_get.acts.bind fun machine => ?_
  cases machine.stack.top machine.registers.esp depth with
  | error fault => exact acts_throw _
  | ok word => exact acts_pure _

theorem acts_loadByte (address : UInt32) : Acts (loadByte address : Eval H UInt8) := by
  refine reads_get.acts.bind fun machine => ?_
  cases machine.byteAt? address with
  | none => exact acts_throw _
  | some byte => exact acts_pure _

theorem acts_readString (address : UInt32) :
    Acts (readString address : Eval H (List UInt8)) := by
  refine reads_get.acts.bind fun machine => ?_
  cases machine.data.string? address with
  | none => exact acts_throw _
  | some bytes => exact acts_pure _

theorem acts_storeByte (address : UInt32) (value : UInt8) :
    Acts (storeByte address value : Eval H Unit) :=
  fun _ _ h => .single (.storeByte address value h)

theorem acts_reset : Acts (reset : Eval H Unit) :=
  fun _ _ h => .single (.reset h)

/-- A machine that is put in the place of another has to come from it by an operation. -/
theorem acts_replace {f : Machine H → Machine H} {g : Machine H → α}
    (h : ∀ machine, Change machine (f machine)) :
    Acts (do
      let machine ← get
      set (f machine)
      return g machine : Eval H α) := by
  intro machine machine' hleaves
  rw [eq_of_leaves_ok rfl hleaves]
  exact .single (h machine)

end Host

theorem acts_log (reply : Reply) : Acts (log reply) := by
  intro machine machine' hleaves
  rw [eq_of_leaves_ok rfl hleaves]
  exact .single (.free machine machine.registers machine.procedures machine.functions
    (reply :: machine.host))

theorem acts_compile (invoke : Invoke) (source : String) :
    Acts (perform invoke (.compile source)) := by
  intro machine machine' hleaves
  cases hcompile : Machine.compile source machine with
  | ok procedure compiled =>
    have hreply : perform invoke (.compile source) machine =
        .ok (.compiled procedure.name procedure.length compiled.data.used) compiled := by
      simp only [perform, hcompile]
    rw [eq_of_leaves_ok hreply hleaves]
    exact .single (.compile source (Or.inl ⟨procedure, hcompile⟩))
  | error e compiled =>
    have hreply : perform invoke (.compile source) machine = .ok (.compileError e) compiled := by
      simp only [perform, hcompile]
    rw [eq_of_leaves_ok hreply hleaves]
    exact .single (.compile source (Or.inr ⟨e, hcompile⟩))

theorem acts_addData (invoke : Invoke) (name : String) (bytes : List UInt8) (size : Nat) :
    Acts (perform invoke (.addData name bytes size)) := by
  intro machine machine' hleaves
  cases hadd : machine.data.add name bytes size with
  | error e =>
    have hreply : perform invoke (.addData name bytes size) machine =
        .ok (.dataError e) machine := by
      simp only [perform, bind, EStateM.bind, get_eq_ok, hadd]
      rfl
    rw [eq_of_leaves_ok hreply hleaves]
  | ok data =>
    have hreply : perform invoke (.addData name bytes size) machine =
        .ok .nothing { machine with data } := by
      simp only [perform, bind, EStateM.bind, get_eq_ok, hadd]
      rfl
    rw [eq_of_leaves_ok hreply hleaves]
    exact .single (.declare hadd)

/-! ## Commands -/

section Perform

variable {invoke : Invoke}

theorem acts_withProcedure {name : String} {f : Procedure → Action Reply}
    (h : ∀ procedure, Acts (f procedure)) : Acts (withProcedure name f) := by
  refine (reads_get.bind_reads fun machine => reads_pure _).acts.bind fun found => ?_
  cases found with
  | none => exact acts_pure _
  | some procedure => exact h procedure

variable (hinvoke : ∀ commands, Acts (invoke commands))
include hinvoke

theorem acts_traceFrom (procedure : Procedure) (limit pc : Nat) :
    Acts (traceFrom invoke procedure limit pc) := by
  induction limit generalizing pc with
  | zero => exact acts_pure _
  | succ limit ih =>
    by_cases hpc : procedure.length ≤ pc
    · have hend : traceFrom invoke procedure (limit + 1) pc = pure [] := if_pos hpc
      rw [hend]
      exact acts_pure _
    intro machine machine' hleaves
    have hrow : traceFrom invoke procedure (limit + 1) pc machine = _ :=
      congrFun (if_neg hpc) machine
    cases hstep : step invoke procedure pc machine with
    | error fault stepped =>
      simp only [hstep] at hrow
      rw [eq_of_leaves_ok hrow hleaves]
      exact acts_step hinvoke procedure pc _ _ (Or.inr ⟨fault, hstep⟩)
    | ok next stepped =>
      simp only [hstep] at hrow
      have hbefore := acts_step hinvoke procedure pc _ _ (Or.inl ⟨next, hstep⟩)
      refine hbefore.trans ?_
      cases next with
      | none => rw [eq_of_leaves_ok hrow hleaves]
      | some next =>
        have hrest : Leaves (traceFrom invoke procedure limit next >>= fun rows =>
            pure (.stepped pc stepped.registers :: rows)) stepped machine' := by
          unfold Leaves at hleaves
          rwa [hrow] at hleaves
        exact (ih next).bind (fun _ => acts_pure _) _ _ hrest

/-- A command only operates on the machine. -/
theorem acts_perform (command : Command) : Acts (perform invoke command) := by
  cases command with
  | compile source => exact acts_compile invoke source
  | run name budget =>
    cases budget with
    | none =>
      exact acts_withProcedure fun procedure =>
        (acts_run hinvoke instructionLimit procedure).bind fun _ => acts_pure _
    | some budget =>
      exact acts_withProcedure fun procedure =>
        (acts_runWithBudget hinvoke procedure budget).bind fun _ => acts_pure _
  | step name pc =>
    refine acts_withProcedure fun procedure => (acts_step hinvoke procedure pc).bind fun next => ?_
    cases next with
    | none => exact acts_pure _
    | some next => exact acts_pure _
  | trace name limit =>
    exact acts_withProcedure fun procedure => (acts_push returnSentinel).bind fun _ =>
      (acts_traceFrom hinvoke procedure limit 0).bind fun _ => acts_pure _
  | call name => exact (acts_call hinvoke instructionLimit name).bind fun _ => acts_pure _
  | push word => exact (acts_push word).bind fun _ => acts_pure _
  | pop => exact acts_pop.bind fun _ => acts_pure _
  | arg depth => exact (acts_arg _).bind fun _ => acts_pure _
  | loadWord address => exact (reads_loadWord address).acts.bind fun _ => acts_pure _
  | loadByte address => exact (acts_loadByte address).bind fun _ => acts_pure _
  | storeWord address value => exact (acts_storeWord address value).bind fun _ => acts_pure _
  | storeByte address value => exact (acts_storeByte address value).bind fun _ => acts_pure _
  | readString address => exact (acts_readString address).bind fun _ => acts_pure _
  | stringArg depth =>
    exact (acts_arg _).bind fun _ => (acts_readString _).bind fun _ => acts_pure _
  | sum =>
    exact (acts_arg 0).bind fun _ => (acts_arg 1).bind fun _ =>
      (acts_modifyRegisters _).bind fun _ => acts_pure _
  | fail name message => exact acts_throw _
  | writeRegister reg value =>
    cases reg with
    | none => exact acts_pure _
    | some reg => exact (acts_modifyRegisters _).bind fun _ => acts_pure _
  | readRegister reg =>
    cases reg with
    | none => exact acts_pure _
    | some reg => exact (reads_readRegister reg).acts.bind fun _ => acts_pure _
  | setFlags flags => exact (acts_modifyRegisters _).bind fun _ => acts_pure _
  | reset => exact acts_reset.bind fun _ => acts_pure _
  | setFunction name commands =>
    refine acts_replace fun machine => ?_
    cases commands with
    | none => exact .free ..
    | some commands => exact .free ..
  | remove name => exact acts_replace fun machine => .free ..
  | insert procedure => exact acts_replace fun machine => .free ..
  | procedure name =>
    refine (reads_get.bind_reads fun machine => reads_pure _).acts.bind fun found => ?_
    cases found with
    | none => exact acts_pure _
    | some procedure => exact acts_pure _
  | indexOf name address =>
    refine (reads_get.bind_reads fun machine => reads_pure _).acts.bind fun found => ?_
    cases found.bind fun procedure => procedure.indexOf? address with
    | none => exact acts_pure _
    | some index => exact acts_pure _
  | addData name bytes size => exact acts_addData invoke name bytes size
  | hasFunction | names | data | stack | config =>
    exact reads_get.acts.bind fun _ => acts_pure _
  | malformed => exact acts_pure _

end Perform

/-- A host function only operates on the machine. -/
theorem acts_invoke (depth : Nat) (commands : List Command) : Acts (invoke depth commands) := by
  induction depth generalizing commands with
  | zero => exact acts_throw _
  | succ depth ih =>
    induction commands with
    | nil => exact acts_pure _
    | cons command rest ihrest =>
      exact ((acts_perform ih command).bind fun reply => acts_log reply).bind fun _ => ihrest

/-! ## Sessions -/

theorem exec_operates (machine : Machine scripted) (command : Command) :
    Operates machine (exec machine command).2 := by
  have hperform : ∀ {machine'}, Leaves (perform (invoke callDepthLimit) command) machine machine' →
      Operates machine { machine' with host := [] } := by
    intro machine' hleaves
    have hbefore : Operates machine machine' :=
      acts_perform (acts_invoke callDepthLimit) command _ _ hleaves
    exact hbefore.tail (.free ..)
  unfold exec
  split
  · next reply machine' hok => exact hperform (Or.inl ⟨reply, hok⟩)
  · next fault machine' herror => exact hperform (Or.inr ⟨fault, herror⟩)

theorem execAll_operates (machine : Machine scripted) (commands : List Command) :
    Operates machine (execAll machine commands).2 := by
  induction commands generalizing machine with
  | nil => exact .refl
  | cons command rest ih => exact (exec_operates machine command).trans (ih _)

/-- After any commands, on a machine of accepted sizes, the memory is one flat map of
bytes. -/
theorem execAll_flatMemory {config : Config} (hvalid : config.validate = .ok ())
    (commands : List Command) : FlatMemory config (execAll (build config []) commands).2 :=
  (Operates.layout (execAll_operates _ commands) (layout_build hvalid [])).isFlat hvalid

end X86Listing.Session
