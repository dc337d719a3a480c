import X86Listing.Procedure.Compile

/-!
# The procedure store

The procedures compiled so far are kept under their names.  A listing whose
procedure is in the store is not compiled again, whatever its body, and the
stored procedure is the answer.  An error leaves the store and the data segment
as they were.
-/

namespace X86Listing

/-- The procedures compiled so far, by name. -/
structure ProcedureStore where
  procedures : NameMap Procedure

namespace ProcedureStore

/-- The store without procedures. -/
def empty : ProcedureStore := ⟨.empty⟩

instance : Inhabited ProcedureStore := ⟨empty⟩

/-- The procedure of a name. -/
def get? (store : ProcedureStore) (name : String) : Option Procedure :=
  store.procedures.get? name

/-- The store with a procedure put under its own name. -/
def insert (store : ProcedureStore) (procedure : Procedure) : ProcedureStore :=
  ⟨store.procedures.insert procedure.name procedure⟩

/-- The store without the procedure of a name. -/
def erase (store : ProcedureStore) (name : String) : ProcedureStore :=
  ⟨store.procedures.erase name⟩

/-- The names of the procedures, in increasing order. -/
def names (store : ProcedureStore) : List String :=
  store.procedures.names

/-- The stored procedure that a listing names. -/
def cached? (store : ProcedureStore) (source : String) : Option Procedure :=
  (procedureName? source).bind store.get?

/-- Compiles the procedure of a listing into a store and a data segment, unless it
is in the store already. -/
def compile (source : String) :
    EStateM CompileError (ProcedureStore × DataSegment) Procedure := fun (store, data) =>
  match store.cached? source with
  | some procedure => .ok procedure (store, data)
  | none =>
    match compileInto source data with
    | .ok procedure data => .ok procedure (store.insert procedure, data)
    | .error e data => .error e (store, data)

end ProcedureStore

end X86Listing
