import X86Listing.Codec.Instruction
import X86Listing.Procedure.Basic

/-!
# Procedures as JSON

A procedure is an object with its name, its locals, its labels and its
instructions.  The locals and the labels are objects that map names to 32-bit
numbers.
-/

namespace X86Listing

/-- A map to words as JSON, its members in the order of the names. -/
def NameMap.toJson (map : NameMap UInt32) : Json :=
  .object (map.entries.map fun entry => (entry.1, .ofUInt32 entry.2))

/-- The map to words that a JSON value is. -/
def NameMap.ofJson? (json : Json) : Option (NameMap UInt32) :=
  match json with
  | .object members => do
    let pairs ← members.mapM fun member => do return (member.1, ← member.2.uint32?)
    return .ofList pairs
  | _ => none

namespace Procedure

/-- A procedure as JSON. -/
def toJson (procedure : Procedure) : Json :=
  .object [
    ("name", .string procedure.name),
    ("locals", procedure.locals.toJson),
    ("labels", procedure.labels.toJson),
    ("instructions", .array (procedure.instructions.toList.map Instruction.toJson))]

/-- The instructions that the items of a JSON array are. -/
def instructionsOfJson? (json : Json) : Option (List Instruction) :=
  match json with
  | .array items => items.mapM Instruction.ofJson?
  | _ => none

/-- The procedure of a JSON value. -/
def ofJson? (json : Json) : Option Procedure := do
  match ← Json.fields? ["name", "locals", "labels", "instructions"] json with
  | [name, locals, labels, instructions] =>
    return {
      name := ← name.string?
      locals := ← NameMap.ofJson? locals
      labels := ← NameMap.ofJson? labels
      instructions := (← instructionsOfJson? instructions).toArray }
  | _ => none

end Procedure

end X86Listing
