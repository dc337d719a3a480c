import X86Listing.Operand.Cursor
import X86Listing.Proofs.Text.Utf8

/-!
# Places in a line

`Cursor.between front rest` is the cursor between two parts of a line, and
`Cursor.OnBoundary` holds of the cursors of a line that do not stand inside of a character.
The bytes ahead of such a cursor are those of the line behind its position
(`OnBoundary.bytes_eq`).

A reader that takes a front off the text ahead moves the cursor behind it
(`Cursor.read_between`).
-/

namespace X86Listing

open Text (utf8Bytes)

namespace Cursor

/-- The cursor between two parts of a line. -/
def between (front rest : List Char) : Cursor :=
  ⟨(utf8Bytes front).length, [], rest⟩

/-- The cursor stands between two characters of the line, or at one of its ends. -/
def OnBoundary (line : List Char) (cursor : Cursor) : Prop :=
  ∃ front rest, line = front ++ rest ∧ cursor = between front rest

variable {line front rest taken left : List Char} {cursor : Cursor}

theorem start_eq_between (line : List Char) : start line = between [] line := rfl

@[simp]
theorem split_between : (between front rest).split = [] := rfl

@[simp]
theorem ahead_between : (between front rest).ahead = rest := rfl

@[simp]
theorem bytes_between : (between front rest).bytes = utf8Bytes rest := rfl

/-- Ahead of the cursor are the bytes of the line behind its position. -/
theorem OnBoundary.bytes_eq (h : cursor.OnBoundary line) :
    cursor.bytes = (utf8Bytes line).drop cursor.position := by
  obtain ⟨front, rest, rfl, rfl⟩ := h
  rw [Text.utf8Bytes_append]
  exact List.drop_left.symm

theorem OnBoundary.position_le (h : cursor.OnBoundary line) :
    cursor.position ≤ (utf8Bytes line).length := by
  obtain ⟨front, rest, rfl, rfl⟩ := h
  rw [Text.utf8Bytes_append, List.length_append]
  exact Nat.le_add_right _ _

theorem advance_between (front taken left : List Char) :
    (between front (taken ++ left)).advance left = between (front ++ taken) left := by
  simp [advance, between]

theorem read_between {α : Type} {reader : Reader α} {a : α}
    (h : reader (taken ++ left) = some (a, left)) :
    (between front (taken ++ left)).read reader = some (a, between (front ++ taken) left) := by
  rw [read, if_pos split_between, ahead_between, h, Option.map_some]
  exact congrArg (fun behind => some (a, behind)) (advance_between front taken left)

theorem read_between_eq_none {α : Type} {reader : Reader α} (h : reader rest = none) :
    (between front rest).read reader = none := by
  rw [read, if_pos split_between, ahead_between, h, Option.map_none]

end Cursor

end X86Listing
