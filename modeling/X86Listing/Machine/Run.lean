import X86Listing.Machine.Step

/-!
# Running a procedure

A run pushes the return sentinel and executes instructions from the first one on.
It ends when a return pops the sentinel, or when the index passes the last
instruction.

`runFrom` executes at most as many instructions as `allowance` says and answers
how much of the allowance is left, or nothing when there was not enough.  The end
is looked at before the allowance, so a procedure can use it up to the last
instruction.
-/

namespace X86Listing.Machine

variable {H : Host}

/-- Executes a procedure from an index on.  The answer is the part of the
allowance that is left at the end, or nothing if it was used up before. -/
def runFrom (invoke : H.Function → Eval H Unit) (procedure : Procedure) :
    (allowance pc : Nat) → Eval H (Option Nat)
  | 0, pc => return if procedure.length ≤ pc then some 0 else none
  | allowance + 1, pc => do
    if procedure.length ≤ pc then
      return some (allowance + 1)
    else
      match ← step invoke procedure pc with
      | none => return some allowance
      | some next => runFrom invoke procedure allowance next

/-- Runs a procedure with an allowance and answers what is left of it. -/
def runFor (invoke : H.Function → Eval H Unit) (procedure : Procedure) (allowance : Nat) :
    Eval H (Option Nat) := do
  push returnSentinel
  runFrom invoke procedure allowance 0

/-- Runs a procedure and answers the number of instructions executed.  It is a
fault to need more than the budget. -/
def runWithBudget (invoke : H.Function → Eval H Unit) (procedure : Procedure) (budget : Nat) :
    Eval H Nat := do
  match ← runFor invoke procedure budget with
  | some left => return budget - left
  | none => throw (.budgetExhausted budget)

/-- Runs a procedure that is expected to return.  `limit` is a number of
instructions that it does not need. -/
def run (invoke : H.Function → Eval H Unit) (limit : Nat) (procedure : Procedure) :
    Eval H Unit :=
  discard (runWithBudget invoke procedure limit)

/-- Runs the procedure of a name, or else calls the host function of that
name. -/
def call (invoke : H.Function → Eval H Unit) (limit : Nat) (name : String) : Eval H Unit := do
  match (← get).procedures.get? name with
  | some procedure => run invoke limit procedure
  | none =>
    match (← get).functions.get? name with
    | some function => invoke function
    | none => throw (.unresolvedCall name)

end X86Listing.Machine
