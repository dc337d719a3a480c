import Mathlib
import X86Listing.Procedure.Survey

/-!
# The outline of a procedure

Which lines of a body are instructions depends on the sections and on the closing
line.  `outline` lists the lines before the closing line, each with what it is.
Everything that a procedure is made of is read off its outline.

* `codeLines` and `dataLines` are the instructions and the declarations of data.
* `declaredLocals` are the locals, the last declaration of each name.
* `LabelAt` says how many instructions stand before the last line of a label.

The first reading finds exactly these (`survey_locals`, `survey_count`,
`survey_labels`).  The second reading classifies the lines in another order and
starts later.  `LineKind.switchFirst_eq_of` says that the order does not matter: a
line that opens with an identifier is no switch.
-/

namespace X86Listing

/-! ## Definitions -/

/-- The lines of a body before the closing line, each with what it is. -/
def outline (current : Section) : List Line → List (LineKind × Line)
  | [] => []
  | line :: rest =>
    match LineKind.of current line.text with
    | .closing => []
    | .switch target => (.switch target, line) :: outline target rest
    | kind => (kind, line) :: outline current rest

/-- The lines of one kind among outlined lines. -/
def linesOf (kind : LineKind) (entries : List (LineKind × Line)) : List Line :=
  (entries.filter fun entry => entry.1 = kind).map Prod.snd

/-- The instructions of a body. -/
def codeLines (body : List Line) : List Line :=
  linesOf .code (outline .code body)

/-- The declarations of data of a body. -/
def dataLines (body : List Line) : List Line :=
  linesOf .data (outline .code body)

/-- The locals with those of one more line. -/
def recordLocal (locals : NameMap UInt32) (entry : LineKind × Line) : NameMap UInt32 :=
  match entry.1 with
  | .localName name value => locals.insert (String.ofList name) value
  | _ => locals

/-- The locals that a body declares, the last declaration of each name. -/
def declaredLocals (body : List Line) : NameMap UInt32 :=
  (outline .code body).foldl recordLocal .empty

/-- The last line of a label among outlined lines stands behind `index`
instructions. -/
def LabelAt (entries : List (LineKind × Line)) (name : List Char) (index : Nat) : Prop :=
  ∃ before line after, entries = before ++ (.label name, line) :: after ∧
    (∀ entry ∈ after, entry.1 ≠ .label name) ∧ index = (linesOf .code before).length

/-! ## One more line -/

theorem outline_cons {current : Section} {line : Line} {kind : LineKind}
    (h : LineKind.of current line.text = kind) (hclosing : kind ≠ .closing)
    (hswitch : ∀ target, kind ≠ .switch target) (rest : List Line) :
    outline current (line :: rest) = (kind, line) :: outline current rest := by
  subst h
  rw [outline]
  split
  · next h => exact absurd h hclosing
  · next target h => exact absurd h (hswitch target)
  · rfl

theorem outline_cons_switch {current target : Section} {line : Line}
    (h : LineKind.of current line.text = .switch target) (rest : List Line) :
    outline current (line :: rest) = (.switch target, line) :: outline target rest := by
  rw [outline, h]

theorem outline_cons_closing {current : Section} {line : Line}
    (h : LineKind.of current line.text = .closing) (rest : List Line) :
    outline current (line :: rest) = [] := by
  rw [outline, h]

@[simp]
theorem linesOf_nil (kind : LineKind) : linesOf kind [] = [] := rfl

theorem linesOf_cons_self (kind : LineKind) (line : Line) (entries : List (LineKind × Line)) :
    linesOf kind ((kind, line) :: entries) = line :: linesOf kind entries := by
  simp [linesOf]

theorem linesOf_cons_of_ne {kind kind' : LineKind} (h : kind' ≠ kind) (line : Line)
    (entries : List (LineKind × Line)) :
    linesOf kind ((kind', line) :: entries) = linesOf kind entries := by
  simp [linesOf, h]

/-- The last line of a label is behind the first line, or it is the first line. -/
theorem labelAt_cons {kind : LineKind} {line : Line} {entries : List (LineKind × Line)}
    {name : List Char} {index : Nat} :
    LabelAt ((kind, line) :: entries) name index ↔
      (∃ i, LabelAt entries name i ∧ index = (linesOf .code [(kind, line)]).length + i) ∨
        (∀ entry ∈ entries, entry.1 ≠ .label name) ∧ kind = .label name ∧ index = 0 := by
  constructor
  · rintro ⟨before, line', after, hsplit, hafter, rfl⟩
    cases before with
    | nil =>
      obtain ⟨⟨rfl, rfl⟩, rfl⟩ : (kind = .label name ∧ line = line') ∧ entries = after := by
        simpa using hsplit
      exact Or.inr ⟨hafter, rfl, rfl⟩
    | cons first before =>
      obtain ⟨rfl, rfl⟩ :
          (kind, line) = first ∧ entries = before ++ (.label name, line') :: after := by
        simpa using hsplit
      refine Or.inl ⟨_, ⟨before, line', after, rfl, hafter, rfl⟩, ?_⟩
      simp only [linesOf, List.filter_cons, List.filter_nil]
      split <;> simp [Nat.add_comm]
  · rintro (⟨i, ⟨before, line', after, rfl, hafter, rfl⟩, rfl⟩ | ⟨hafter, rfl, rfl⟩)
    · refine ⟨(kind, line) :: before, line', after, rfl, hafter, ?_⟩
      simp only [linesOf, List.filter_cons, List.filter_nil]
      split <;> simp [Nat.add_comm]
    · exact ⟨[], line, entries, rfl, hafter, rfl⟩

/-- A name has one last line. -/
theorem LabelAt.unique {entries : List (LineKind × Line)} {name : List Char} {i j : Nat}
    (hi : LabelAt entries name i) (hj : LabelAt entries name j) : i = j := by
  induction entries generalizing i j with
  | nil =>
    obtain ⟨before, line, after, hsplit, -⟩ := hi
    simp at hsplit
  | cons entry entries ih =>
    obtain ⟨kind, line⟩ := entry
    have hmem : ∀ {i}, LabelAt entries name i → ∃ entry ∈ entries, entry.1 = .label name := by
      rintro i ⟨before, line, after, rfl, -⟩
      exact ⟨(.label name, line), by simp, rfl⟩
    rcases labelAt_cons.1 hi with ⟨i', hi', rfl⟩ | ⟨hnone, -, rfl⟩
    · rcases labelAt_cons.1 hj with ⟨j', hj', rfl⟩ | ⟨hnone, -, -⟩
      · rw [ih hi' hj']
      · obtain ⟨entry, he, hkind⟩ := hmem hi'
        exact absurd hkind (hnone entry he)
    · rcases labelAt_cons.1 hj with ⟨j', hj', rfl⟩ | ⟨-, -, rfl⟩
      · obtain ⟨entry, he, hkind⟩ := hmem hj'
        exact absurd hkind (hnone entry he)
      · rfl

/-- The instructions before a label are among those of the outline. -/
theorem LabelAt.le_length {entries : List (LineKind × Line)} {name : List Char} {index : Nat}
    (h : LabelAt entries name index) : index ≤ (linesOf .code entries).length := by
  obtain ⟨before, line, after, rfl, -, rfl⟩ := h
  simp [linesOf]

/-! ## The first reading -/

/-- The findings of the first reading after one more outlined line. -/
def Survey.note (found : Survey) (entry : LineKind × Line) : Survey :=
  match entry.1 with
  | .localName name value =>
    { found with locals := found.locals.insert (String.ofList name) value }
  | .label name => { found with labels := found.labels.insert (String.ofList name) found.count }
  | .code => { found with count := found.count + 1 }
  | _ => found

/-- The first reading goes through the outline. -/
theorem read_eq_foldl (found : Survey) (current : Section) (body : List Line) :
    ∃ closed, found.read current body =
      { (outline current body).foldl Survey.note found with closed } := by
  fun_induction Survey.read found current body with
  | case1 => exact ⟨_, rfl⟩
  | case2 found current line rest name value hkind ih =>
    rwa [outline_cons hkind (by simp) (by simp)]
  | case3 found current line rest target hkind ih => rwa [outline_cons_switch hkind]
  | case4 found current line rest hkind ih =>
    rwa [outline_cons hkind (by simp) (by simp)]
  | case5 found current line rest name hkind ih =>
    rwa [outline_cons hkind (by simp) (by simp)]
  | case6 found current line rest hkind =>
    rw [outline_cons_closing hkind]
    exact ⟨_, rfl⟩
  | case7 found current line rest hkind ih =>
    rwa [outline_cons hkind (by simp) (by simp)]

theorem foldl_note_locals (entries : List (LineKind × Line)) (found : Survey) :
    (entries.foldl Survey.note found).locals = entries.foldl recordLocal found.locals := by
  induction entries generalizing found with
  | nil => rfl
  | cons entry entries ih =>
    obtain ⟨kind, line⟩ := entry
    rw [List.foldl_cons, List.foldl_cons, ih]
    cases kind <;> rfl

theorem note_count (found : Survey) (kind : LineKind) (line : Line) :
    (found.note (kind, line)).count = found.count + (linesOf .code [(kind, line)]).length := by
  cases kind <;> rfl

theorem length_linesOf_cons (kind kind' : LineKind) (line : Line)
    (entries : List (LineKind × Line)) :
    (linesOf kind ((kind', line) :: entries)).length =
      (linesOf kind [(kind', line)]).length + (linesOf kind entries).length := by
  by_cases h : kind' = kind
  · subst h
    simp [linesOf_cons_self, Nat.add_comm]
  · simp [linesOf_cons_of_ne h]

theorem foldl_note_count (entries : List (LineKind × Line)) (found : Survey) :
    (entries.foldl Survey.note found).count =
      found.count + (linesOf .code entries).length := by
  induction entries generalizing found with
  | nil => rfl
  | cons entry entries ih =>
    obtain ⟨kind, line⟩ := entry
    rw [List.foldl_cons, ih, note_count, length_linesOf_cons .code kind line entries,
      Nat.add_assoc]

theorem note_labels_of_ne {kind : LineKind} {name : List Char} (h : kind ≠ .label name)
    (found : Survey) (line : Line) :
    (found.note (kind, line)).labels.get? (String.ofList name) =
      found.labels.get? (String.ofList name) := by
  cases kind with
  | label other =>
    have hne : String.ofList name ≠ String.ofList other := fun he =>
      h (by rw [String.ofList_injective he])
    simp [Survey.note, NameMap.get?_insert, hne]
  | _ => rfl

/-- The table of labels has a label at the index of its last line, counted on from
the instructions before.  A label without a line is as it was. -/
theorem foldl_note_labels (entries : List (LineKind × Line)) (found : Survey)
    (name : List Char) (index : Nat) :
    (entries.foldl Survey.note found).labels.get? (String.ofList name) = some index ↔
      (∃ i, LabelAt entries name i ∧ index = found.count + i) ∨
        (∀ entry ∈ entries, entry.1 ≠ .label name) ∧
          found.labels.get? (String.ofList name) = some index := by
  induction entries generalizing found with
  | nil => simp [LabelAt]
  | cons entry entries ih =>
    obtain ⟨kind, line⟩ := entry
    rw [List.foldl_cons, ih, note_count]
    simp only [labelAt_cons, List.forall_mem_cons]
    by_cases hkind : kind = .label name
    · -- The line takes the place of what was known of the label before.
      subst hkind
      have hself : (found.note (.label name, line)).labels.get? (String.ofList name) =
          some found.count := NameMap.get?_insert_self ..
      rw [hself, Option.some_inj]
      constructor
      · rintro (⟨i, hi, rfl⟩ | ⟨hnone, rfl⟩)
        · exact Or.inl ⟨_, Or.inl ⟨i, hi, rfl⟩, Nat.add_assoc ..⟩
        · exact Or.inl ⟨0, Or.inr ⟨hnone, rfl, rfl⟩, rfl⟩
      · rintro (⟨i, ⟨j, hj, rfl⟩ | ⟨hnone, -, rfl⟩, rfl⟩ | ⟨⟨hne, -⟩, -⟩)
        · exact Or.inl ⟨j, hj, (Nat.add_assoc ..).symm⟩
        · exact Or.inr ⟨hnone, rfl⟩
        · exact absurd rfl hne
    · rw [note_labels_of_ne hkind]
      constructor
      · rintro (⟨i, hi, rfl⟩ | ⟨hnone, hfound⟩)
        · exact Or.inl ⟨_, Or.inl ⟨i, hi, rfl⟩, Nat.add_assoc ..⟩
        · exact Or.inr ⟨⟨hkind, hnone⟩, hfound⟩
      · rintro (⟨i, ⟨j, hj, rfl⟩ | ⟨-, hlabel, -⟩, rfl⟩ | ⟨⟨-, hnone⟩, hfound⟩)
        · exact Or.inl ⟨j, hj, (Nat.add_assoc ..).symm⟩
        · exact absurd hlabel hkind
        · exact Or.inr ⟨hnone, hfound⟩

theorem survey_locals (body : List Line) : (survey body).locals = declaredLocals body := by
  obtain ⟨closed, h⟩ := read_eq_foldl .start .code body
  rw [survey, h]
  exact foldl_note_locals ..

theorem survey_count (body : List Line) : (survey body).count = (codeLines body).length := by
  obtain ⟨closed, h⟩ := read_eq_foldl .start .code body
  rw [survey, h]
  exact (foldl_note_count ..).trans (Nat.zero_add _)

theorem survey_labels (body : List Line) (name : List Char) (index : Nat) :
    (survey body).labels.get? (String.ofList name) = some index ↔
      LabelAt (outline .code body) name index := by
  obtain ⟨closed, h⟩ := read_eq_foldl .start .code body
  rw [survey, h]
  have hlabels := foldl_note_labels (outline .code body) .start name index
  simpa [Survey.start] using hlabels

/-! ## The order of classification -/

/-- A line with the name of a local in front is no switch of section. -/
theorem section?_eq_none_of_local? {text : List Char} {found : List Char × UInt32}
    (h : local? text = some found) : section? text = none := by
  have hstart : startsWith startsIdentifier text = true := by
    by_contra hno
    simp [local?, identifier?, hno] at h
  cases text with
  | nil => rfl
  | cons c rest =>
    -- A switch starts with a full stop, which is no letter in either case.
    have hc : c.toLower ≠ '.' := by
      intro hdot
      have halpha := Char.isAlpha_toLower_eq_isAlpha c
      rw [hdot] at halpha
      rcases Bool.or_eq_true_iff.1 hstart with hletter | hunderscore
      · rw [← halpha] at hletter
        exact absurd hletter (by decide)
      · rw [beq_iff_eq.1 hunderscore] at hdot
        exact absurd hdot (by decide)
    simp [section?, Text.SameLetters, hc]

/-- Both readings see the same in a line. -/
theorem LineKind.switchFirst_eq_of (current : Section) (text : List Char) :
    switchFirst current text = of current text := by
  unfold switchFirst of
  cases hlocal : local? text with
  | none => rfl
  | some found => simp [section?_eq_none_of_local? hlocal]

end X86Listing
