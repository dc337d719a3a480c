import X86Listing.AddressMap
import X86Listing.Instruction.Basic
import X86Listing.NameMap

/-!
# Procedures

A procedure is a list of instructions under a name, with the names of its locals
and of its labels.  A label stands for the code address of the instruction behind
it.  `Labels.resolve` turns the indices that were counted while the procedure was
read into such addresses.
-/

namespace X86Listing

/-- The labels of a procedure with the indices of the instructions behind
them. -/
abbrev PendingLabels := NameMap Nat

/-- The labels of a procedure with the code addresses of the instructions behind
them. -/
abbrev Labels := NameMap UInt32

/-- The labels with indices turned into addresses. -/
def Labels.resolve (pending : PendingLabels) : Labels :=
  pending.mapValues codeAddress

/-- A compiled procedure. -/
structure Procedure where
  name : String
  /-- The offsets of the locals from the frame pointer. -/
  locals : NameMap UInt32
  labels : Labels
  instructions : Array Instruction

namespace Procedure

instance : Inhabited Procedure := ⟨⟨"", .empty, .empty, #[]⟩⟩

/-- The number of instructions. -/
def length (procedure : Procedure) : Nat :=
  procedure.instructions.size

/-- The instruction at an index. -/
def instruction? (procedure : Procedure) (index : Nat) : Option Instruction :=
  procedure.instructions[index]?

/-- The index of the instruction at a code address. -/
def indexOf? (procedure : Procedure) (address : UInt32) : Option Nat :=
  codeIndex? address procedure.length

end Procedure

end X86Listing
