import X86Listing.Proofs.DataSegment.Words
import X86Listing.Proofs.Declaration.OffsetTable
import X86Listing.Proofs.Procedure.Assembly

/-!
# A table of code addresses in the data segment

A table is declared by a line with its label and by the lines that continue it.
`DeclaresTable` finds such lines among the declarations of a procedure.

`Declares.table` says what is left of them at the end of the second reading: the
label names a chunk, and the chunk starts with the addresses of the labels that are
listed.  Three stretches of declarations are behind this.

* Before the table its label names nothing (`Declares.chunk?_eq_none`).
* The lines of the table add to a chunk that ends at the fill mark
  (`Declares.rows`).
* The lines behind the table do not touch the bytes below the fill mark.
-/

namespace X86Listing

open Text (isSpace)

/-! ## Definitions -/

/-- Lines that continue a table, with the names that they list. -/
inductive TableRows : List (List Char) → List Line → Prop where
  | nil : TableRows [] []
  | cons {row names : List (List Char)} {line : Line} {lines : List Line}
      (hrow : TableRow row line.text) (hrest : TableRows names lines) :
      TableRows (row ++ names) (line :: lines)

/-- A line of the list declares a table under a label, the lines behind it continue
the table, and no line before it declares the label.  The table lists the names. -/
def DeclaresTable (lines : List Line) (label : List Char) (names : List (List Char)) : Prop :=
  ∃ before line rows after gap text row more, lines = before ++ line :: (rows ++ after) ∧
    (∀ other ∈ before, (Declaration.word other.text).1 ≠ label) ∧
    line.text = label ++ (gap ++ text) ∧ (∀ c ∈ gap, isSpace c = true) ∧ gap ≠ [] ∧
    TableRow row text ∧ TableRows more rows ∧ names = row ++ more

/-! ## Runs of declarations -/

namespace Declares

variable {locals : NameMap UInt32} {labels : Labels} {last : Option String}
  {data data' : DataSegment} {lines : List Line} {declarations : List Declaration}

/-- A run over two lists of lines is a run over the first and then one over the
second. -/
theorem append_inv {more : List Line}
    (h : Declares locals labels last data (lines ++ more) declarations data') :
    ∃ last₁ data₁ first second, Declares locals labels last data lines first data₁ ∧
      Declares locals labels last₁ data₁ more second data' ∧ declarations = first ++ second := by
  induction lines generalizing last data declarations with
  | nil => exact ⟨last, data, [], declarations, .nil .., h, rfl⟩
  | cons line lines ih =>
    cases h with
    | cons hdecode hlabel hadd hrest =>
      obtain ⟨last₁, data₁, first, second, hfirst, hsecond, rfl⟩ := ih hrest
      exact ⟨last₁, data₁, _, second, .cons hdecode hlabel hadd hfirst, hsecond, rfl⟩

/-- A label that no line declares names nothing new. -/
theorem chunk?_eq_none {label : List Char}
    (h : Declares locals labels last data lines declarations data')
    (hlast : last ≠ some (String.ofList label))
    (hlines : ∀ line ∈ lines, (Declaration.word line.text).1 ≠ label)
    (hnone : data.chunk? (String.ofList label) = none) :
    data'.chunk? (String.ofList label) = none := by
  induction h with
  | nil => exact hnone
  | @cons last data data₁ data' line lines declaration declarations name hdecode hname hadd
      hrest ih =>
    have hne : name ≠ String.ofList label := by
      rintro rfl
      unfold dataLabel at hname
      split at hname
      · next own _ hown =>
        have hword := Declaration.word_of_label hdecode hown
        rw [String.ofList_injective (Except.ok.inj hname)] at hword
        exact hlines line List.mem_cons_self hword
      · next name hnone hsome =>
        exact hlast (congrArg some (Except.ok.inj hname))
      · cases hname
    obtain ⟨-, -, -, -, ⟨chunk, -, hchunks⟩, -⟩ := DataSegment.add_eq_ok hadd
    refine ih (fun hsome => hne (Option.some.inj hsome))
      (fun line hmem => hlines line (List.mem_cons_of_mem _ hmem)) ?_
    rw [hchunks, if_neg hne.symm, hnone]

/-- The lines that continue a table add the addresses of their labels to its chunk. -/
theorem rows {label : String} {names : List (List Char)} {chunk : Chunk}
    (h : Declares locals labels (some label) data lines declarations data')
    (hrows : TableRows names lines)
    (hlabels : ∀ name ∈ names, ∃ value, labels.get? (String.ofList name) = some value)
    (hchunk : data.chunk? label = some chunk) (hend : chunk.offset + chunk.size = data.used) :
    ∃ values : List UInt32,
      names.map (fun name => labels.get? (String.ofList name)) = values.map some ∧
      declarations.flatMap Declaration.bytes = values.flatMap bytesOfWord ∧
      data'.chunk? label = some ⟨chunk.offset, chunk.size + 4 * values.length⟩ := by
  induction hrows generalizing data declarations chunk with
  | nil =>
    cases h
    exact ⟨[], rfl, rfl, hchunk⟩
  | @cons row names line lines hrow hrest ih =>
    cases h with
    | @cons _ _ data₁ _ _ _ declaration declarations name hdecode hname hadd hrun =>
      obtain ⟨hlabel, values, hvalues, hbytes⟩ :=
        hrow.decode_eq_ok (fun name hmem => hlabels name (List.mem_append_left _ hmem)) hdecode
      obtain rfl : label = name := by
        simpa [dataLabel, hlabel] using hname
      obtain ⟨-, -, -, hused, ⟨new, hextend, hchunks⟩, -⟩ := DataSegment.add_eq_ok hadd
      rcases DataSegment.extend_eq_ok hextend with ⟨hnone, -⟩ | ⟨old, hold, -, rfl⟩
      · rw [hchunk] at hnone
        cases hnone
      · obtain rfl : chunk = old := Option.some.inj (hchunk.symm.trans hold)
        have hnew : data₁.chunk? label =
            some ⟨chunk.offset, chunk.size + declaration.bytes.length⟩ := by
          rw [hchunks, if_pos rfl]
        have hend' : chunk.offset + (chunk.size + declaration.bytes.length) = data₁.used := by
          omega
        obtain ⟨more, hmore, hflat, hlast⟩ :=
          ih hrun (fun name hmem => hlabels name (List.mem_append_right _ hmem)) hnew hend'
        refine ⟨values ++ more, ?_, ?_, ?_⟩
        · rw [List.map_append, List.map_append, hvalues, hmore]
        · rw [List.flatMap_cons, List.flatMap_append, hbytes, hflat]
        · rw [hlast, hbytes, length_flatMap_bytesOfWord, List.length_append]
          simp only [Option.some.injEq, Chunk.mk.injEq, true_and]
          omega

/-- At the end of a run the label of a table names a chunk that starts with the
addresses of the labels that the table lists. -/
theorem table {capacity : Nat} {label : List Char} {names : List (List Char)}
    (h : Declares locals labels none data lines declarations data')
    (hsound : data.Sound capacity) (htable : DeclaresTable lines label names)
    (hlabel : IsIdentifier label) (hnone : data.chunk? (String.ofList label) = none)
    (hlabels : ∀ name ∈ names, ∃ value, labels.get? (String.ofList name) = some value) :
    ∃ (values : List UInt32) (chunk : Chunk),
      names.map (fun name => labels.get? (String.ofList name)) = values.map some ∧
      data'.chunk? (String.ofList label) = some chunk ∧ 4 * values.length ≤ chunk.size ∧
      data'.region.bytes.slice chunk.offset (4 * values.length) =
        values.flatMap bytesOfWord := by
  obtain ⟨before, line, rows, after, gap, text, row, more, rfl, hbefore, htext, hgap, hne, hrow,
    hrows, rfl⟩ := htable
  obtain ⟨last₁, data₁, first, second, hfirst, hsecond, -⟩ := h.append_inv
  have hnone₁ := hfirst.chunk?_eq_none (by simp) hbefore hnone
  have hsound₁ := hfirst.sound hsound
  cases hsecond with
  | @cons _ _ data₂ _ _ _ declaration declarations name hdecode hname hadd hrest =>
    have hdecode' := hdecode
    rw [htext] at hdecode'
    obtain ⟨hown, values, hvalues, hbytes⟩ := hrow.decode_labelled hlabel hgap hne
      (fun name hmem => hlabels name (List.mem_append_left _ hmem)) hdecode'
    obtain rfl : String.ofList label = name := by
      simpa [dataLabel, hown] using hname
    obtain ⟨-, -, -, hused, ⟨chunk, hextend, hchunks⟩, -⟩ := DataSegment.add_eq_ok hadd
    rcases DataSegment.extend_eq_ok hextend with ⟨-, rfl⟩ | ⟨old, hold, -⟩
    · have hchunk₂ : data₂.chunk? (String.ofList label) =
          some ⟨data₁.used, declaration.bytes.length⟩ := by
        rw [hchunks, if_pos rfl]
      obtain ⟨last₃, data₃, third, fourth, hthird, hfourth, -⟩ := hrest.append_inv
      obtain ⟨values', hvalues', hflat, hchunk₃⟩ := hthird.rows hrows
        (fun name hmem => hlabels name (List.mem_append_right _ hmem)) hchunk₂ hused.symm
      have hsound₃ := hthird.sound (hsound₁.add hadd)
      have hafter := hfourth.appends hsound₃
      obtain ⟨size, hchunk, hle, -⟩ := hafter.chunk_eq hchunk₃
      -- The lines of the table are a run of their own.
      have htable := (Declares.cons hdecode hname hadd hthird).appends hsound₁
      rw [List.flatMap_cons, hbytes, hflat, ← List.flatMap_append] at htable
      refine ⟨values ++ values', ⟨data₁.used, size⟩, ?_, hchunk, ?_, ?_⟩
      · rw [List.map_append, List.map_append, hvalues, hvalues']
      · rw [hbytes, length_flatMap_bytesOfWord] at hle
        rw [List.length_append, Nat.mul_add]
        exact hle
      · have hslice := htable.slice_eq
        have hmark := htable.used_eq
        rw [length_flatMap_bytesOfWord] at hslice hmark
        rw [← hslice]
        refine List.map_congr_left fun i hi => ?_
        have hlt : i < data₁.used + 4 * (values ++ values').length := (List.mem_range'_1.1 hi).2
        exact hafter.get_of_lt (by omega)
    · rw [hnone₁] at hold
      cases hold

end Declares

end X86Listing
