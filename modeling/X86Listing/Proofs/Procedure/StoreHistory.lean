import X86Listing.Procedure.Store
import X86Listing.Proofs.Procedure.Assembly

/-!
# Histories of a procedure store

A listing is looked up in the store by the name in its header, and a procedure is kept under
the name that the compiler gave it.  The two names are found by two readings of the listing.
`performAll_answers` says that they are always the same, whatever was asked of the store
before, and what follows from this for the answers of the store.

* `Request` is one request to a store and a data segment, and `performAll` a history of them.
* `Keyed` is the invariant: every procedure is kept under its own name.  `Keyed.perform` is the
  step, and `Keyed.performAll` the induction.
* `get?_perform` is the step for a procedure that is in the store.  A compile leaves it there,
  because a listing of its name is answered and not compiled.  `get?_performAll` is the
  induction.
-/

namespace X86Listing.ProcedureStore

variable {store store' : ProcedureStore} {data data' : DataSegment} {source name : String}
  {procedure : Procedure}

/-! ## One compile -/

/-- A listing of a name that is in the store is answered from there, whatever its body. -/
theorem compile_of_get? (hname : procedureName? source = some name)
    (hget : store.get? name = some procedure) :
    ProcedureStore.compile source (store, data) = .ok procedure (store, data) := by
  have hcached : store.cached? source = some procedure := by
    rw [cached?, hname, Option.bind_some, hget]
  simp only [ProcedureStore.compile, hcached]

/-- A compile that is refused changes nothing. -/
theorem compile_eq_error {e : CompileError}
    (h : ProcedureStore.compile source (store, data) = .error e (store', data')) :
    store' = store ∧ data' = data := by
  simp only [ProcedureStore.compile] at h
  split at h
  · cases h
  · split at h
    · cases h
    · next hinto =>
      cases h
      exact ⟨rfl, (compileInto_eq_error hinto).1⟩

/-- The two ways in which a compile answers: with the procedure that is in the store, or with
one that was compiled and put in under the name of its listing, which was free. -/
theorem compile_cases
    (h : ProcedureStore.compile source (store, data) = .ok procedure (store', data')) :
    (∃ name, procedureName? source = some name ∧ store.get? name = some procedure ∧
        store' = store ∧ data' = data) ∨
      procedureName? source = some procedure.name ∧ store.get? procedure.name = none ∧
        store' = store.insert procedure := by
  simp only [ProcedureStore.compile] at h
  split at h
  · next found hcached =>
    cases h
    obtain ⟨name, hname, hget⟩ := Option.bind_eq_some_iff.1 hcached
    exact Or.inl ⟨name, hname, hget, rfl, rfl⟩
  · next hfresh =>
    split at h
    · next hinto =>
      cases h
      obtain ⟨body, hheader, -⟩ := compileInto_eq_ok hinto
      have hname : procedureName? source = some procedure.name := by
        rw [procedureName?, hheader, Option.map_some]
      rw [cached?, hname, Option.bind_some] at hfresh
      exact Or.inr ⟨hname, hfresh, rfl⟩
    · cases h

theorem get?_insert (store : ProcedureStore) (procedure : Procedure) (name : String) :
    (store.insert procedure).get? name =
      if name = procedure.name then some procedure else store.get? name :=
  NameMap.get?_insert ..

theorem get?_erase (store : ProcedureStore) (erased name : String) :
    (store.erase erased).get? name = if name = erased then none else store.get? name :=
  NameMap.get?_erase ..

/-! ## Procedures under their own names -/

/-- Every procedure is kept under its own name. -/
def Keyed (store : ProcedureStore) : Prop :=
  ∀ name procedure, store.get? name = some procedure → procedure.name = name

namespace Keyed

theorem empty : Keyed empty := by
  intro name procedure h
  cases h

theorem insert (h : Keyed store) (procedure : Procedure) : Keyed (store.insert procedure) := by
  intro name found hget
  rw [get?_insert] at hget
  split at hget
  · next hname =>
    cases hget
    exact hname.symm
  · exact h name found hget

theorem erase (h : Keyed store) (erased : String) : Keyed (store.erase erased) := by
  intro name found hget
  rw [get?_erase] at hget
  split at hget
  · cases hget
  · exact h name found hget

/-- The answer of a compile is kept under the name of its listing. -/
theorem compile_answer (hkeyed : Keyed store)
    (h : ProcedureStore.compile source (store, data) = .ok procedure (store', data')) :
    procedureName? source = some procedure.name ∧
      store'.get? procedure.name = some procedure := by
  rcases compile_cases h with ⟨name, hname, hget, rfl, -⟩ | ⟨hname, -, rfl⟩
  · obtain rfl := hkeyed name procedure hget
    exact ⟨hname, hget⟩
  · exact ⟨hname, by rw [get?_insert, if_pos rfl]⟩

end Keyed

/-! ## Requests -/

/-- One request to a procedure store: to compile a listing, to put a procedure in, or to take
one out. -/
inductive Request where
  | compile (source : String)
  | insert (procedure : Procedure)
  | erase (name : String)

namespace Request

/-- The store and the data segment after a request, whether it was refused or not. -/
def perform (state : ProcedureStore × DataSegment) : Request → ProcedureStore × DataSegment
  | compile source =>
    match ProcedureStore.compile source state with
    | .ok _ state' => state'
    | .error _ state' => state'
  | insert procedure => (state.1.insert procedure, state.2)
  | erase name => (state.1.erase name, state.2)

/-- The request puts a procedure in under the name, or takes the one of the name out. -/
def Replaces (name : String) : Request → Prop
  | compile _ => False
  | insert procedure => procedure.name = name
  | erase erased => erased = name

end Request

/-- The store and the data segment after a history of requests. -/
def performAll (state : ProcedureStore × DataSegment) (requests : List Request) :
    ProcedureStore × DataSegment :=
  requests.foldl Request.perform state

/-- A compile leaves the store, or it puts a procedure in under a name that was free. -/
theorem perform_compile (state : ProcedureStore × DataSegment) (source : String) :
    ((Request.compile source).perform state).1 = state.1 ∨ ∃ procedure,
      state.1.get? procedure.name = none ∧
        ((Request.compile source).perform state).1 = state.1.insert procedure := by
  simp only [Request.perform]
  cases hcompile : ProcedureStore.compile source state with
  | error e state' => exact Or.inl (compile_eq_error hcompile).1
  | ok procedure state' =>
    rcases compile_cases hcompile with ⟨_, _, _, hsame, _⟩ | ⟨_, hfree, hinsert⟩
    · exact Or.inl hsame
    · exact Or.inr ⟨procedure, hfree, hinsert⟩

theorem Keyed.perform {state : ProcedureStore × DataSegment} (h : Keyed state.1)
    (request : Request) : Keyed (request.perform state).1 := by
  cases request with
  | insert procedure => exact h.insert procedure
  | erase erased => exact h.erase erased
  | compile source =>
    rcases perform_compile state source with hsame | ⟨procedure, -, hinsert⟩
    · rwa [hsame]
    · rw [hinsert]
      exact h.insert procedure

theorem Keyed.performAll {state : ProcedureStore × DataSegment} (h : Keyed state.1)
    (requests : List Request) : Keyed (performAll state requests).1 := by
  induction requests generalizing state with
  | nil => exact h
  | cons request requests ih => exact ih (h.perform request)

/-- A request that is not about its name leaves a procedure in the store. -/
theorem get?_perform {state : ProcedureStore × DataSegment}
    (h : state.1.get? name = some procedure) {request : Request}
    (hspares : ¬request.Replaces name) :
    (request.perform state).1.get? name = some procedure := by
  cases request with
  | insert added =>
    have hne : ¬name = added.name := fun heq => hspares heq.symm
    show (state.1.insert added).get? name = some procedure
    rw [get?_insert, if_neg hne, h]
  | erase erased =>
    have hne : ¬name = erased := fun heq => hspares heq.symm
    show (state.1.erase erased).get? name = some procedure
    rw [get?_erase, if_neg hne, h]
  | compile source =>
    rcases perform_compile state source with hsame | ⟨added, hfree, hinsert⟩
    · rwa [hsame]
    · -- What was compiled has another name, since this name was not free.
      have hne : ¬name = added.name := by
        rintro rfl
        rw [hfree] at h
        cases h
      rw [hinsert, get?_insert, if_neg hne, h]

theorem get?_performAll {state : ProcedureStore × DataSegment}
    (h : state.1.get? name = some procedure) {requests : List Request}
    (hspares : ∀ request ∈ requests, ¬request.Replaces name) :
    (performAll state requests).1.get? name = some procedure := by
  induction requests generalizing state with
  | nil => exact h
  | cons request requests ih =>
    obtain ⟨hfirst, hrest⟩ := List.forall_mem_cons.1 hspares
    exact ih (get?_perform h hfirst) hrest

/-! ## The answers of a store -/

/-- What holds of a store after any history of requests:

* every procedure is kept under its own name;
* a compile that succeeds answers the procedure that is kept under the name of its listing,
  and this is the name of the procedure;
* a listing whose name is in the store is answered from there, and nothing changes;
* a compile that fails changes nothing;
* from then on the answer for a name stays the same, until a request puts a procedure in
  under this name or takes it out. -/
theorem performAll_answers (data : DataSegment) (requests : List Request) :
    let state := performAll (empty, data) requests
    (∀ name procedure, state.1.get? name = some procedure → procedure.name = name) ∧
      (∀ source procedure state', ProcedureStore.compile source state = .ok procedure state' →
        procedureName? source = some procedure.name ∧
          state'.1.get? procedure.name = some procedure) ∧
      (∀ source name procedure, procedureName? source = some name →
        state.1.get? name = some procedure →
          ProcedureStore.compile source state = .ok procedure state) ∧
      (∀ source e state', ProcedureStore.compile source state = .error e state' →
        state' = state) ∧
      ∀ source procedure state', ProcedureStore.compile source state = .ok procedure state' →
        ∀ later, (∀ request ∈ later, ¬request.Replaces procedure.name) →
          ∀ source', procedureName? source' = some procedure.name →
            ProcedureStore.compile source' (performAll state' later) =
              .ok procedure (performAll state' later) := by
  intro state
  have hempty : Keyed (empty, data).1 := Keyed.empty
  have hkeyed : Keyed state.1 := hempty.performAll requests
  refine ⟨hkeyed, fun source procedure state' h => hkeyed.compile_answer h,
    fun source name procedure hname hget => compile_of_get? hname hget,
    fun source e state' h => ?_, ?_⟩
  · obtain ⟨hstore, hdata⟩ := compile_eq_error h
    exact Prod.ext hstore hdata
  · intro source procedure state' h later hspares source' hname
    obtain ⟨-, hget⟩ := hkeyed.compile_answer h
    exact compile_of_get? hname (get?_performAll hget hspares)

/-- A listing of one instruction. -/
def incrementListing : String :=
  "f proc near\ninc eax\nretn\nf endp"

/-- A listing of the same name that does not compile. -/
def malformedListing : String :=
  "f proc near\n.data\nx db 300\n.code\nbogus eax"

/-- Requests about other names, the first of which is refused. -/
def otherRequests : List Request :=
  [.compile "g proc near\nretn", .insert ⟨"h", .empty, .empty, #[]⟩, .erase "h"]

/-- The second listing is refused by an empty store, and it is answered with the procedure of
the first one if that is there. -/
theorem performAll_answers_incrementListing :
    (∃ e, ProcedureStore.compile malformedListing (empty, .new 16) =
      .error e (empty, .new 16)) ∧
    ∃ procedure state, ProcedureStore.compile incrementListing (empty, .new 16) =
        .ok procedure state ∧
      procedureName? incrementListing = some procedure.name ∧
      ProcedureStore.compile malformedListing (performAll state otherRequests) =
        .ok procedure (performAll state otherRequests) := by
  have hname : procedureName? malformedListing = some "f" := by decide +kernel
  have hspares : ∀ request ∈ otherRequests, ¬request.Replaces "f" := by
    simp [otherRequests, Request.Replaces]
  have hrefused : (match ProcedureStore.compile malformedListing (empty, .new 16) with
      | .ok .. => false
      | .error .. => true) = true := by decide +kernel
  have hcheck : (match ProcedureStore.compile incrementListing (empty, .new 16) with
      | .ok procedure _ => decide (procedure.name = "f")
      | .error .. => false) = true := by decide +kernel
  obtain ⟨-, hanswer, -, hkept, hlater⟩ := performAll_answers (.new 16) []
  constructor
  · cases h : ProcedureStore.compile malformedListing (empty, .new 16) with
    | ok procedure state =>
      rw [h] at hrefused
      cases hrefused
    | error e state => exact ⟨e, by rw [hkept _ _ _ h]; rfl⟩
  · cases h : ProcedureStore.compile incrementListing (empty, .new 16) with
    | error e state =>
      rw [h] at hcheck
      cases hcheck
    | ok procedure state =>
      rw [h] at hcheck
      have hown : procedure.name = "f" := of_decide_eq_true hcheck
      rw [← hown] at hname hspares
      exact ⟨procedure, state, rfl, (hanswer _ _ _ h).1, hlater _ _ _ h _ hspares _ hname⟩

end X86Listing.ProcedureStore
