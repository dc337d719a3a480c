/-!
# Pieces of a text

`pieces sep text` cuts a text at every occurrence of `sep`.  No piece holds
`sep`, and there is always at least one piece.  Source text is cut at line
feeds and a line at spaces.  `afterLast stop text` is the end of a text behind
the last character that satisfies `stop`.
-/

namespace X86Listing.Text

/-- The pieces of a text between the occurrences of `sep`. -/
def pieces (sep : Char) : List Char → List (List Char)
  | [] => [[]]
  | c :: rest =>
    if c = sep then
      [] :: pieces sep rest
    else
      match pieces sep rest with
      | [] => [[c]]
      | piece :: more => (c :: piece) :: more

/-- The characters behind the last one that satisfies `stop`; the whole text if
none does. -/
def afterLast (stop : Char → Bool) (text : List Char) : List Char :=
  (text.reverse.takeWhile fun c => !stop c).reverse

@[simp]
theorem pieces_nil (sep : Char) : pieces sep [] = [[]] := rfl

@[simp]
theorem pieces_cons_self (sep : Char) (rest : List Char) :
    pieces sep (sep :: rest) = [] :: pieces sep rest := by
  simp [pieces]

theorem pieces_ne_nil (sep : Char) (text : List Char) : pieces sep text ≠ [] := by
  cases text with
  | nil => simp
  | cons c rest =>
    unfold pieces
    split
    · simp
    · split <;> simp

/-- No piece holds the separator. -/
theorem not_mem_of_mem_pieces {sep : Char} {text piece : List Char}
    (h : piece ∈ pieces sep text) : sep ∉ piece := by
  induction text generalizing piece with
  | nil => simp_all
  | cons c rest ih =>
    unfold pieces at h
    split at h
    · rcases List.mem_cons.1 h with rfl | h
      · simp
      · exact ih h
    · next hc =>
      split at h
      · simp_all [Ne.symm hc]
      · next first more hs =>
        rcases List.mem_cons.1 h with rfl | h
        · have hfirst : first ∈ pieces sep rest := by simp [hs]
          have := ih hfirst
          simp [this, Ne.symm hc]
        · exact ih (by simp [hs, h])

/-- What stands behind the last stop holds no stop. -/
theorem not_stop_of_mem_afterLast {stop : Char → Bool} {text : List Char} {c : Char}
    (h : c ∈ afterLast stop text) : stop c = false := by
  have h' : c ∈ text.reverse.takeWhile fun c => !stop c := by simpa [afterLast] using h
  simpa using List.all_eq_true.1 List.all_takeWhile c h'

end X86Listing.Text
