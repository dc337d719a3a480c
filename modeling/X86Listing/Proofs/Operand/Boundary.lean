import X86Listing.Instruction.Decode
import X86Listing.Proofs.Operand.Declared

/-!
# Where readers stop

A reader stops behind a whole token, so what is left of a text does not start inside of a name.
`Boundary` says this of a place in a text, and `Reader.Stops.boundary` of the places where
readers stop.

An error that names an unresolved symbol looks for it at the end of the text, and
`identifierOf_of_unreadable` says that it finds a whole identifier.
-/

namespace X86Listing

open Text (isSpace afterLast)

/-! ## Definitions -/

/-- The place in front of `rest` is not inside of an identifier. -/
def Boundary (text rest : List Char) : Prop :=
  ∃ front, text = front ++ rest ∧ (startsWith startsIdentifier rest = true →
    ∀ c ∈ front.getLast?, continuesIdentifier c = false)

/-- An identifier of a text, which goes on neither to the left nor to the right. -/
def IdentifierOf (name text : List Char) : Prop :=
  IsIdentifier name ∧ ∃ front rest, text = front ++ (name ++ rest) ∧
    (∀ c ∈ front.getLast?, continuesIdentifier c = false) ∧
    startsWith continuesIdentifier rest = false

/-- Behind the token of a reader comes no letter, and then spaces are passed over. -/
def Reader.Stops {α : Type} (reader : Reader α) : Prop :=
  ∀ {text : List Char} {a : α} {rest : List Char}, reader text = some (a, rest) →
    ∃ after, after <:+ text ∧ startsWith startsIdentifier after = false ∧ rest = skipSpaces after

variable {text rest name : List Char}

/-! ## Boundaries -/

namespace Boundary

theorem refl (text : List Char) : Boundary text text :=
  ⟨[], rfl, by simp⟩

theorem trans {text' : List Char} (h : Boundary text text') (k : Boundary text' rest) :
    Boundary text rest := by
  obtain ⟨front, rfl, hfront⟩ := h
  obtain ⟨front', rfl, hfront'⟩ := k
  refine ⟨front ++ front', by simp, fun hstart c hc => ?_⟩
  cases front' with
  | nil => exact hfront hstart c (by simpa using hc)
  | cons d front' => exact hfront' hstart c (by simpa [List.getLast?_append] using hc)

theorem suffix (h : Boundary text rest) : rest <:+ text := by
  obtain ⟨front, rfl, -⟩ := h
  exact List.suffix_append front rest

/-- No identifier starts in front of `rest`. -/
theorem of_suffix (h : rest <:+ text) (hstart : startsWith startsIdentifier rest = false) :
    Boundary text rest := by
  obtain ⟨front, rfl⟩ := h
  exact ⟨front, rfl, by simp [hstart]⟩

theorem dropWhile {isMember : Char → Bool}
    (h : ∀ c, isMember c = true → continuesIdentifier c = false) (text : List Char) :
    Boundary text (text.dropWhile isMember) := by
  refine ⟨text.takeWhile isMember, List.takeWhile_append_dropWhile.symm, fun _ c hc => ?_⟩
  exact h c (List.mem_takeWhile_imp (List.mem_of_getLast? hc))

theorem skipSpaces (text : List Char) : Boundary text (skipSpaces text) :=
  dropWhile (fun _ hc => not_continuesIdentifier_of_stop (Or.inl hc)) text

theorem skipCommas (text : List Char) : Boundary text (skipCommas text) := by
  refine dropWhile (fun c hc => ?_) text
  simp only [Bool.or_eq_true, beq_iff_eq] at hc
  rcases hc with hc | rfl
  · exact not_continuesIdentifier_of_stop (Or.inl hc)
  · decide

/-- Behind a mark and spaces. -/
theorem mark {c : Char} (h : continuesIdentifier c = false) (rest : List Char) :
    Boundary (c :: rest) (X86Listing.skipSpaces rest) :=
  trans ⟨[c], rfl, fun _ => by simpa using h⟩ (skipSpaces rest)

/-- Behind the last stop of a text. -/
theorem afterLast {stop : Char → Bool} (h : ∀ c, stop c = true → continuesIdentifier c = false)
    (text : List Char) : Boundary text (afterLast stop text) := by
  refine ⟨(text.reverse.dropWhile fun c => !stop c).reverse, ?_, fun _ c hc => h c ?_⟩
  · rw [Text.afterLast, ← List.reverse_append, List.takeWhile_append_dropWhile,
      List.reverse_reverse]
  · rw [List.getLast?_reverse] at hc
    obtain ⟨tail, htail⟩ := List.head?_eq_some_iff.1 hc
    have hstop := not_startsWith_dropWhile (fun c => !stop c) text.reverse
    rw [htail] at hstop
    simpa [startsWith] using hstop

end Boundary

theorem Reader.Stops.boundary {α : Type} {reader : Reader α} (hreader : reader.Stops) {a : α}
    (h : reader text = some (a, rest)) : Boundary text rest := by
  obtain ⟨after, hsuffix, hstart, rfl⟩ := hreader h
  exact (Boundary.of_suffix hsuffix hstart).trans (Boundary.skipSpaces after)

/-! ## Readers -/

theorem not_startsIdentifier_of_isSpace {text : List Char} (h : startsWith isSpace text = true) :
    startsWith startsIdentifier text = false := by
  cases text with
  | nil => cases h
  | cons c text =>
    have hc : startsWith continuesIdentifier (c :: text) = false :=
      not_continuesIdentifier_of_stop (Or.inl h)
    exact not_startsWith_of_imp (fun _ => continuesIdentifier_of_startsIdentifier) hc

theorem mnemonic?_stops : Reader.Stops mnemonic? := by
  intro text a rest h
  simp only [mnemonic?] at h
  split at h
  · cases h
  split at h
  · next hstop =>
    cases h
    refine ⟨_, List.dropWhile_suffix _, ?_, rfl⟩
    rcases hstop with hnil | hspace
    · rw [hnil]
      rfl
    · exact not_startsIdentifier_of_isSpace hspace
  · cases h

theorem identifier?_stops : Reader.Stops identifier? := by
  intro text a rest h
  simp only [identifier?] at h
  split at h
  · cases h
    refine ⟨_, List.dropWhile_suffix _, ?_, rfl⟩
    exact not_startsWith_of_imp (fun _ => continuesIdentifier_of_startsIdentifier)
      (not_startsWith_dropWhile continuesIdentifier text)
  · cases h

theorem register?_stops : Reader.Stops register? := by
  intro text a rest h
  simp only [register?] at h
  split at h
  · cases h
  next hstop =>
  split at h
  · cases h
  · cases h
    refine ⟨_, List.dropWhile_suffix _, ?_, rfl⟩
    rw [not_or, Bool.not_eq_true] at hstop
    exact not_startsWith_of_imp (fun _ => continuesIdentifier_of_startsIdentifier) hstop.2

theorem number?_stops : Reader.Stops number? := by
  intro text a rest h
  simp only [number?] at h
  split at h
  · cases h
  next hstart =>
  split at h
  · cases h
  · cases h
    exact ⟨_, ((skipMark_suffix _).trans (List.dropWhile_suffix _)).trans (skipSign_suffix text),
      by simpa using hstart, rfl⟩

theorem keyword?_boundary {word : List Char} (h : keyword? word text = some rest) :
    Boundary text rest := by
  obtain ⟨keyword, after, rfl, -, hspace, rfl⟩ := keyword?_eq_some h
  exact (Boundary.of_suffix (List.suffix_append keyword after)
    (not_startsIdentifier_of_isSpace hspace)).trans (Boundary.skipSpaces after)

namespace Symbols

theorem local?_stops (symbols : Symbols) : Reader.Stops symbols.local? := by
  intro text a rest h
  simp only [local?] at h
  split at h
  · cases h
  next hname =>
  split at h
  · cases h
  · cases h
    exact identifier?_stops hname

theorem offset?_stops (symbols : Symbols) : Reader.Stops symbols.offset? := by
  intro text a rest h
  simp only [offset?] at h
  split at h
  · cases h
  next hname =>
  split at h
  · cases h
  · cases h
    obtain ⟨after, hsuffix, hstart, rfl⟩ := identifier?_stops hname
    exact ⟨after, hsuffix.trans ((skipShort_suffix _).trans (skipSegment_suffix text)), hstart, rfl⟩

theorem value?_stops (symbols : Symbols) : Reader.Stops symbols.value? := by
  intro text a rest h
  simp only [value?, Option.or_eq_some_iff] at h
  rcases h with h | ⟨-, h | ⟨-, h⟩⟩
  · exact number?_stops h
  · exact symbols.local?_stops h
  · exact symbols.offset?_stops h

end Symbols

/-- Only a text with a colon starts with a segment. -/
theorem segment?_eq_none (h : ':' ∉ text) : segment? text = none := by
  have hnone : skipChar? ':' (text.dropWhile Char.isAlpha) = none := by
    cases hrest : skipChar? ':' (text.dropWhile Char.isAlpha) with
    | none => rfl
    | some rest =>
      refine absurd ((List.dropWhile_suffix Char.isAlpha).subset ?_) h
      rw [skipChar?_eq_some.1 hrest]
      exact List.mem_cons_self
  simp only [segment?, hnone, ite_self]

/-! ## Identifiers of a text -/

theorem IdentifierOf.of_boundary {line : List Char} (h : IdentifierOf name text)
    (hboundary : Boundary line text) : IdentifierOf name line := by
  obtain ⟨hname, front, rest, rfl, hfront, hrest⟩ := h
  refine ⟨hname, ?_⟩
  obtain ⟨before, rfl, hbefore⟩ := hboundary
  refine ⟨before ++ front, rest, by simp, fun c hc => ?_, hrest⟩
  cases front with
  | nil =>
    refine hbefore ?_ c (by simpa using hc)
    rw [List.nil_append, startsWith_append hname.ne_nil]
    exact hname.1
  | cons d front => exact hfront c (by simpa [List.getLast?_append] using hc)

/-- The end of a text without stops, which starts behind a stop if anything is before it. -/
theorem afterLast_append {stop : Char → Bool} {front word : List Char}
    (hfront : ∀ c ∈ front.getLast?, stop c = true) (hword : ∀ c ∈ word, stop c = false) :
    afterLast stop (front ++ word) = word := by
  have hgo : ∀ c ∈ word.reverse, (!stop c) = true := by
    intro c hc
    rw [hword c (List.mem_reverse.1 hc)]
    rfl
  have hstop : startsWith (fun c => !stop c) front.reverse = false := by
    cases hlast : front.reverse with
    | nil => rfl
    | cons c before =>
      have hc : c ∈ front.getLast? := by simp [← List.head?_reverse, hlast]
      simp [startsWith, hfront c hc]
  rw [afterLast, List.reverse_append, takeWhile_run hgo hstop, List.reverse_reverse]

/-- The name in an error is the start of the last word. -/
theorem unreadable_eq_unresolved {expected unresolved : String}
    (h : Decoder.unreadable expected text = .unresolved unresolved) :
    unresolved.toList = (afterLast (fun c => c == ':' || c == ' ') text).takeWhile
        continuesIdentifier ∧ IsIdentifier unresolved.toList := by
  simp only [Decoder.unreadable] at h
  split at h
  · next hstart =>
    cases h
    rw [String.toList_ofList]
    exact ⟨rfl, hstart, fun c hc => List.mem_takeWhile_imp hc⟩
  · cases h

/-- The name in an error is an identifier of the text. -/
theorem identifierOf_of_unreadable {expected unresolved : String}
    (h : Decoder.unreadable expected text = .unresolved unresolved) :
    IdentifierOf unresolved.toList text := by
  obtain ⟨hname, hidentifier⟩ := unreadable_eq_unresolved h
  have hstop : ∀ c : Char, (c == ':' || c == ' ') = true → continuesIdentifier c = false := by
    intro c hc
    simp only [Bool.or_eq_true, beq_iff_eq] at hc
    rcases hc with rfl | rfl <;> decide
  refine IdentifierOf.of_boundary ?_ (Boundary.afterLast hstop text)
  generalize afterLast (fun c => c == ':' || c == ' ') text = word at hname ⊢
  refine ⟨hidentifier, [], word.dropWhile continuesIdentifier, ?_, by simp,
    not_startsWith_dropWhile continuesIdentifier word⟩
  rw [hname, List.nil_append, List.takeWhile_append_dropWhile]

end X86Listing
