import X86Listing.Proofs.Machine.Operations
import X86Listing.Proofs.Procedure.Assembly

/-!
# Where the memory of a machine is

A machine gets its stack and its data segment when it is made, and no operation moves
them or changes their sizes.  `Layout` is this invariant.  It also says that the data
segment has a history of declarations and stores, which is what the theorems about
compiling ask for.

* `Config.validate_eq_ok_iff` says which sizes are accepted.
* `Change.layout` is the step: each operation keeps the layout.  `Operates.layout` is the
  induction, and `Reachable.layout` its consequence for whole histories.
-/

namespace X86Listing

/-- The sizes that fit the address map. -/
theorem Config.validate_eq_ok_iff {config : Config} :
    config.validate = .ok () ↔ dataBase.toNat + config.dataSize ≤ codeBase.toNat ∧
      stackBase.toNat + 4 * config.stackWords < 2 ^ 32 := by
  unfold validate
  split
  · next hdata =>
    simp only [reduceCtorEq, false_iff]
    omega
  · next hdata =>
    split
    · next hstack =>
      simp only [reduceCtorEq, false_iff]
      omega
    · next hstack =>
      simp only [true_iff]
      omega

/-- A stack that is accepted gets all its slots. -/
theorem Stack.size_new {words : Nat} (h : stackBase.toNat + 4 * words < 2 ^ 32) :
    (new words stackBase).region.size = 4 * words := by
  have hbase : stackBase.toNat = 0x800000 := rfl
  show 4 * min words ((0xffffffff - stackBase.toNat) / 4) = _
  omega

namespace Machine

variable {H : Host} {config : Config} {machine machine' : Machine H}

/-- The memory of a machine is where its configuration puts it. -/
structure Layout (config : Config) (machine : Machine H) : Prop where
  /-- The data segment has the capacity it was made with, and a history. -/
  data : machine.data.Reachable config.dataSize
  stack_base : machine.stack.region.base = stackBase
  stack_size : machine.stack.region.size = 4 * config.stackWords

theorem layout_build (hvalid : config.validate = .ok ()) (host : H.State) :
    Layout config (build config host) where
  data := .new
  stack_base := rfl
  stack_size := Stack.size_new (Config.validate_eq_ok_iff.1 hvalid).2

/-! ## What the operations leave -/

/-- A store into memory, in one equation. -/
theorem storeWord_eq (machine : Machine H) (address value : UInt32) :
    storeWord address value machine =
      match machine.storeWord? address value with
      | some machine' => .ok () machine'
      | none => .error (.badAddress address 4) machine := by
  simp only [storeWord, bind, EStateM.bind, get_eq_ok]
  cases machine.storeWord? address value <;> rfl

theorem storeByte_eq (machine : Machine H) (address : UInt32) (value : UInt8) :
    storeByte address value machine =
      match machine.storeByte? address value with
      | some machine' => .ok () machine'
      | none => .error (.badAddress address 1) machine := by
  simp only [storeByte, bind, EStateM.bind, get_eq_ok]
  cases machine.storeByte? address value <;> rfl

/-- A computation that can refuse has done nothing if it did. -/
theorem leaves_of_eq_match {x : Eval H Unit} {fault : Fault} {result : Option (Machine H)}
    (heq : x machine = match result with
      | some machine' => .ok () machine'
      | none => .error fault machine)
    (h : Leaves x machine machine') : machine' = machine ∨ result = some machine' := by
  cases result with
  | some found => exact Or.inr (congrArg some (eq_of_leaves_ok heq h).symm)
  | none => exact Or.inl (eq_of_leaves_error heq h)

/-- A push writes a word somewhere in the stack or does nothing. -/
theorem push_leaves {word : UInt32} (h : Leaves (push word) machine machine') :
    machine' = machine ∨ ∃ registers offset, machine' = { machine with
      registers, stack := ⟨machine.stack.region.writeAt offset (bytesOfWord word)⟩ } := by
  rcases h with ⟨_, hok⟩ | ⟨fault, herror⟩
  · obtain ⟨region, hregion, rfl⟩ := push_of_eq_ok hok
    obtain ⟨offset, -, rfl⟩ := Option.map_eq_some_iff.1 hregion
    exact Or.inr ⟨_, offset, rfl⟩
  · exact Or.inl (atomic_push word _ _ _ herror).1

/-- A compile can only add a procedure and declare data. -/
theorem compile_leaves {source : String} (h : Leaves (compile source) machine machine') :
    ∃ procedures data, machine' = { machine with procedures, data } ∧
      (data = machine.data ∨ Leaves (compileInto source) machine.data data) := by
  have hcompile : ∃ procedures data, compile source machine =
        (match ProcedureStore.compile source (machine.procedures, machine.data) with
        | .ok procedure _ => .ok procedure { machine with procedures, data }
        | .error e _ => .error e { machine with procedures, data }) ∧
      (data = machine.data ∨ Leaves (compileInto source) machine.data data) := by
    unfold compile ProcedureStore.compile
    simp only
    cases machine.procedures.cached? source with
    | some procedure => exact ⟨_, _, rfl, Or.inl rfl⟩
    | none =>
      cases hinto : compileInto source machine.data with
      | ok procedure data => exact ⟨_, data, rfl, Or.inr (Or.inl ⟨procedure, hinto⟩)⟩
      | error e data => exact ⟨_, data, rfl, Or.inr (Or.inr ⟨e, hinto⟩)⟩
  obtain ⟨procedures, data, heq, hdata⟩ := hcompile
  refine ⟨procedures, data, ?_, hdata⟩
  cases hstore : ProcedureStore.compile source (machine.procedures, machine.data) with
  | ok procedure stored =>
    rw [hstore] at heq
    exact eq_of_leaves_ok heq h
  | error e stored =>
    rw [hstore] at heq
    exact eq_of_leaves_error heq h

/-! ## The invariant -/

namespace Layout

theorem storeWord? (h : Layout config machine) {address value : UInt32}
    (hstore : machine.storeWord? address value = some machine') : Layout config machine' := by
  unfold Machine.storeWord? at hstore
  split at hstore
  · next data hdata =>
    cases hstore
    exact ⟨h.data.storeWord hdata, h.stack_base, h.stack_size⟩
  · obtain ⟨region, hregion, rfl⟩ := Option.map_eq_some_iff.1 hstore
    obtain ⟨offset, -, rfl⟩ := Option.map_eq_some_iff.1 hregion
    exact ⟨h.data, h.stack_base, h.stack_size⟩

theorem storeByte? (h : Layout config machine) {address : UInt32} {value : UInt8}
    (hstore : machine.storeByte? address value = some machine') : Layout config machine' := by
  unfold Machine.storeByte? at hstore
  split at hstore
  · next data hdata =>
    cases hstore
    exact ⟨h.data.storeByte hdata, h.stack_base, h.stack_size⟩
  · obtain ⟨region, hregion, rfl⟩ := Option.map_eq_some_iff.1 hstore
    obtain ⟨offset, -, rfl⟩ := Option.map_eq_some_iff.1 hregion
    exact ⟨h.data, h.stack_base, h.stack_size⟩

end Layout

/-- An operation keeps the layout, also when it fails. -/
theorem Change.layout (hchange : Change machine machine') (h : Layout config machine) :
    Layout config machine' := by
  cases hchange with
  | free registers procedures functions host => exact ⟨h.data, h.stack_base, h.stack_size⟩
  | reset hleaves =>
    rw [eq_of_leaves_ok rfl hleaves]
    exact ⟨h.data, h.stack_base, h.stack_size⟩
  | push word hleaves =>
    rcases push_leaves hleaves with rfl | ⟨registers, offset, rfl⟩
    · exact h
    · exact ⟨h.data, h.stack_base, h.stack_size⟩
  | pop hleaves =>
    rcases hleaves with ⟨word, hok⟩ | ⟨fault, herror⟩
    · rw [(pop_of_eq_ok hok).1]
      exact ⟨h.data, h.stack_base, h.stack_size⟩
    · rw [(atomic_pop _ _ _ herror).1]
      exact h
  | storeWord address value hleaves =>
    rcases leaves_of_eq_match (storeWord_eq machine address value) hleaves with rfl | hstore
    · exact h
    · exact h.storeWord? hstore
  | storeByte address value hleaves =>
    rcases leaves_of_eq_match (storeByte_eq machine address value) hleaves with rfl | hstore
    · exact h
    · exact h.storeByte? hstore
  | declare hadd => exact ⟨h.data.add hadd, h.stack_base, h.stack_size⟩
  | compile source hleaves =>
    obtain ⟨procedures, data, rfl, rfl | hinto⟩ := compile_leaves hleaves
    · exact ⟨h.data, h.stack_base, h.stack_size⟩
    · exact ⟨compileInto_reachable h.data hinto, h.stack_base, h.stack_size⟩

theorem Operates.layout (hoperates : Operates machine machine') (h : Layout config machine) :
    Layout config machine' := by
  induction hoperates with
  | refl => exact h
  | tail _ hchange ih => exact hchange.layout ih

theorem Reachable.layout {invoke : H.Function → Eval H Unit}
    (hinvoke : ∀ function, Acts (invoke function)) (h : Reachable invoke config machine) :
    Layout config machine := by
  obtain ⟨hvalid, host, hoperates⟩ := h.operates hinvoke
  exact Operates.layout hoperates (layout_build hvalid host)

end Machine

end X86Listing
