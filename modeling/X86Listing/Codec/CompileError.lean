import X86Listing.Codec.Variant
import X86Listing.CompileError

/-!
# Compile errors as JSON

A compile error is an object with a member for each field.  The category is
written by its name and read as it stands there, even if it is not the one of the
code.
-/

namespace X86Listing

/-- The category of a JSON value. -/
def ErrorCategory.ofJson? (json : Json) : Option ErrorCategory :=
  (Json.variant? false json).bind ErrorCategory.ofName?

namespace CompileError

/-- A compile error as JSON. -/
def toJson (e : CompileError) : Json :=
  .object [
    ("code", .ofUInt16 e.code.number),
    ("category", .string e.category.name),
    ("message", .string e.message),
    ("line", .ofUInt32 e.line),
    ("source_line", .string e.sourceLine)]

/-- The compile error of a JSON value. -/
def ofJson? (json : Json) : Option CompileError := do
  match ← Json.fields? ["code", "category", "message", "line", "source_line"] json with
  | [code, category, message, line, sourceLine] =>
    return {
      code := ⟨← code.uint16?⟩
      category := ← ErrorCategory.ofJson? category
      message := ← message.string?
      line := ← line.uint32?
      sourceLine := ← sourceLine.string? }
  | _ => none

end CompileError

end X86Listing
