import X86Listing.Text.Case

/-!
# Tables of names

A table lists names in increasing order, each with a value, and is searched by
halving.  Names are compared up to the case of ASCII letters.

The search keeps a range that holds the wanted entry if there is one.  Each
round looks at the entry in the middle of the range and keeps the half that
starts with it, or the half before it if that entry is too large.
-/

namespace X86Listing.Text

/-- Narrows the range of `size` entries from `start` on to one entry.  `order i`
tells how entry `i` compares with the wanted name; `rounds` bounds the number of
halvings. -/
def narrow (order : Nat → Ordering) : (rounds start size : Nat) → Nat
  | 0, start, _ => start
  | rounds + 1, start, size =>
    if size ≤ 1 then
      start
    else
      let half := size / 2
      let middle := start + half
      narrow order rounds (if order middle = .gt then start else middle) (size - half)

/-- How the entry at an index compares with a name.  Behind the table everything is
too large. -/
def compareEntry {α : Type} (table : Array (String × α)) (name : List Char) (i : Nat) :
    Ordering :=
  match table[i]? with
  | some entry => compareIgnoreCase entry.1.toList name
  | none => .gt

/-- The value of a name in a table that is in order. -/
def findIgnoreCase? {α : Type} (table : Array (String × α)) (name : List Char) : Option α :=
  match table[narrow (compareEntry table name) table.size 0 table.size]? with
  | some entry => if compareIgnoreCase entry.1.toList name = .eq then some entry.2 else none
  | none => none

end X86Listing.Text
