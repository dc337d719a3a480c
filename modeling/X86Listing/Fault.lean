import X86Listing.Text.Numeral

/-!
# Faults

A fault ends the execution of a procedure.  `Fault` lists the causes and
`Fault.message` gives each its text, with addresses in hexadecimal.
-/

namespace X86Listing

/-- Why an execution stopped. -/
inductive Fault where
  /-- A push found no free slot below the stack top. -/
  | stackOverflow (esp : UInt32)
  /-- A read past the end of the stack. -/
  | stackUnderflow (address : UInt32)
  /-- A load or store of `len` bytes outside the data segment and the stack. -/
  | badAddress (address : UInt32) (len : Nat)
  /-- A jump to an address that is no instruction of the running procedure. -/
  | badJumpTarget (address : UInt32)
  /-- A call of a function that is not registered. -/
  | unresolvedCall (name : String)
  /-- A division by zero. -/
  | divideByZero
  /-- A return to an address other than the sentinel. -/
  | corruptReturn (address : UInt32)
  /-- As many instructions as allowed were executed, and the procedure has not
  returned. -/
  | budgetExhausted (budget : Nat)
  /-- A host function failed. -/
  | host (name message : String)
deriving DecidableEq, Repr

namespace Fault

open Text (hex)

/-- The text of a fault. -/
def message : Fault → String
  | stackOverflow esp => "stack overflow: push with esp = " ++ hex esp.toNat
  | stackUnderflow address =>
    "stack underflow: read at " ++ hex address.toNat ++ " past the stack top"
  | badAddress address len => "bad address " ++ hex address.toNat ++ s!" ({len} bytes)"
  | badJumpTarget address => "bad jump target " ++ hex address.toNat
  | unresolvedCall name => s!"unresolved call to '{name}'"
  | divideByZero => "divide by zero"
  | corruptReturn address => "corrupt return address " ++ hex address.toNat
  | budgetExhausted budget => s!"instruction budget of {budget} exhausted"
  | host name message => s!"host function '{name}' failed: {message}"

/-- The name of the kind of a fault. -/
def kind : Fault → String
  | stackOverflow _ => "StackOverflow"
  | stackUnderflow _ => "StackUnderflow"
  | badAddress .. => "BadAddress"
  | badJumpTarget _ => "BadJumpTarget"
  | unresolvedCall _ => "UnresolvedCall"
  | divideByZero => "DivideByZero"
  | corruptReturn _ => "CorruptReturn"
  | budgetExhausted _ => "BudgetExhausted"
  | host .. => "Host"

end Fault

end X86Listing
