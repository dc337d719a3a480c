/-!
# A machine behind a lock

`Guarded` is a value that has one holder at a time.  Locking a free value takes it
out, and it is not there for anyone else until it is put back.
-/

namespace X86Listing

/-- A value behind a lock. -/
inductive Guarded (α : Type) where
  /-- Nobody holds the value. -/
  | free (value : α)
  /-- Somebody holds the value. -/
  | held

namespace Guarded

variable {α β : Type}

/-- Takes the value if nobody holds it. -/
def tryLock : Guarded α → Option (α × Guarded α)
  | free value => some (value, held)
  | held => none

/-- Puts a value back. -/
def unlock (value : α) : Guarded α :=
  free value

/-- Is the value free to take? -/
def isFree (guarded : Guarded α) : Bool :=
  guarded.tryLock.isSome

/-- Works on the value while holding it.  Without the value there is nothing to
work on. -/
def withLock (f : α → β × α) (guarded : Guarded α) : Option (β × Guarded α) :=
  match guarded.tryLock with
  | none => none
  | some (value, _) =>
    let (answer, value) := f value
    some (answer, unlock value)

/-- Can the value be taken while it is held by the one who just took it? -/
def isFreeWhileHeld (guarded : Guarded α) : Bool :=
  match guarded.tryLock with
  | none => false
  | some (_, taken) => taken.isFree

end Guarded

end X86Listing
