import X86Listing.Procedure.Store
import X86Listing.Proofs.Declaration.OffsetTable
import X86Listing.Proofs.Procedure.Assembly

/-!
# Compiling a procedure again

A procedure can be taken out of the store, but its data stays in the data segment.  So when
its listing is compiled again, the second reading meets the labels of its own declarations.

`ProcedureStore.compile_erase` says what comes of it.  A listing with one data label, or
with none, compiles to the same procedure: its declarations go on with the chunk that they
made the first time.  A listing with two data labels is refused at its first declaration,
since the chunk of the first label is not the last one any more.

* `Declares.ends_at_used` and `Declares.ends_below_used` say where the chunk of a label ends
  after the first compile.
* `Declares.again` and `Declares.declareAll_refused` are the declarations of the second.
-/

namespace X86Listing

/-! ## Definitions -/

/-- The label that a line declares data under, if it has one of its own. -/
def Line.dataLabel? (line : Line) : Option (List Char) :=
  match Declaration.head line.text with
  | .ok (label, _) => label
  | .error _ => none

/-- The labels that lines declare data under, in order. -/
def dataLabels (lines : List Line) : List (List Char) :=
  lines.filterMap Line.dataLabel?

/-- The lines declare data under one label at most. -/
def SingleLabel (lines : List Line) : Prop :=
  ∃ name, ∀ other ∈ dataLabels lines, other = name

/-! ## Declarations -/

theorem mem_dataLabels_cons {line : Line} {lines : List Line} {label : List Char} :
    label ∈ dataLabels (line :: lines) ↔
      line.dataLabel? = some label ∨ label ∈ dataLabels lines := by
  simp only [dataLabels, List.mem_filterMap, List.exists_mem_cons_iff]

/-- If the first line has a label, and the lines are under several, there is another label
behind it. -/
theorem exists_other_label {line : Line} {lines : List Line} {own : List Char}
    (hown : line.dataLabel? = some own) (hseveral : ¬SingleLabel (line :: lines)) :
    ∃ other ∈ dataLabels lines, String.ofList other ≠ String.ofList own := by
  by_contra hnone
  apply hseveral
  refine ⟨own, fun other hmem => ?_⟩
  rcases mem_dataLabels_cons.1 hmem with hsame | hmem
  · exact Option.some.inj (hsame.symm.trans hown)
  · by_contra hne
    exact hnone ⟨other, hmem, fun heq => hne (String.ofList_injective heq)⟩

namespace Declaration

variable {symbols : Symbols} {line : Line} {declaration : Declaration}

theorem label_eq (h : decode symbols line.text = .ok declaration) :
    declaration.label = line.dataLabel? := by
  obtain ⟨rest, hhead, -⟩ := decode_eq_ok h
  rw [Line.dataLabel?, hhead]

/-- A declaration without bytes is refused. -/
theorem length_pos (h : decode symbols line.text = .ok declaration) :
    0 < declaration.bytes.length := by
  obtain ⟨head, -, h⟩ := except_bind_eq_ok h
  obtain ⟨bytes, -, h⟩ := except_bind_eq_ok h
  split at h
  · cases h
  · next hne =>
    cases h
    exact List.length_pos_iff.2 hne

end Declaration

/-- A line with a label of its own declares data under that label. -/
theorem dataLabel_of_own {symbols : Symbols} {last : Option String} {line : Line}
    {declaration : Declaration} {own : List Char}
    (hdecode : Declaration.decode symbols line.text = .ok declaration)
    (h : line.dataLabel? = some own) :
    dataLabel last line declaration = .ok (String.ofList own) := by
  rw [← Declaration.label_eq hdecode] at h
  simp only [dataLabel, h]

/-- The label that a line declares data under is its own or the last one before it. -/
theorem dataLabel_eq_ok {last : Option String} {line : Line} {declaration : Declaration}
    {label : String} (h : dataLabel last line declaration = .ok label) :
    (∃ own, declaration.label = some own ∧ String.ofList own = label) ∨ last = some label := by
  cases hown : declaration.label with
  | some own =>
    simp only [dataLabel, hown] at h
    exact Or.inl ⟨own, rfl, Except.ok.inj h⟩
  | none =>
    cases last with
    | none =>
      simp only [dataLabel, hown] at h
      cases h
    | some name =>
      simp only [dataLabel, hown] at h
      exact Or.inr (congrArg some (Except.ok.inj h))

namespace DataSegment

variable {data data' : DataSegment} {name : String} {bytes : List UInt8} {size : Nat}
  {chunk : Chunk}

/-- The chunk of a declaration ends at the fill mark, and the other chunks are as before. -/
theorem add_ends (h : data.add name bytes size = .ok data') :
    (∃ chunk, data'.chunk? name = some chunk ∧ chunk.offset + chunk.size = data'.used) ∧
      ∀ key, key ≠ name → data'.chunk? key = data.chunk? key := by
  obtain ⟨-, -, -, hused, ⟨chunk, hextend, hchunks⟩, -⟩ := add_eq_ok h
  refine ⟨⟨chunk, by rw [hchunks, if_pos rfl], ?_⟩, fun key hkey => by rw [hchunks, if_neg hkey]⟩
  rcases extend_eq_ok hextend with ⟨-, rfl⟩ | ⟨old, -, hend, rfl⟩
  · exact hused.symm
  · show old.offset + (old.size + size) = data'.used
    omega

/-- A name whose chunk ends at the fill mark can be declared again. -/
theorem add_of_ends (hchunk : data.chunk? name = some chunk)
    (hend : chunk.offset + chunk.size = data.used) (hfree : size ≤ data.free) :
    ∃ data', data.add name bytes size = .ok data' := by
  have hextend : data.extend name size = .ok ⟨chunk.offset, chunk.size + size⟩ := by
    simp only [extend, hchunk, if_pos hend]
  rw [add, if_neg (Nat.not_lt.2 hfree), hextend]
  exact ⟨_, rfl⟩

/-- A name whose chunk ends before the fill mark cannot. -/
theorem add_eq_error (hchunk : data.chunk? name = some chunk)
    (hend : chunk.offset + chunk.size ≠ data.used) (hfree : size ≤ data.free) :
    data.add name bytes size = .error (.notLastChunk name) := by
  have hextend : data.extend name size = .error (.notLastChunk name) := by
    simp only [extend, hchunk, if_neg hend]
  rw [add, if_neg (Nat.not_lt.2 hfree), hextend]

/-- So a declaration that succeeds is under another name. -/
theorem ne_of_add {label : String} (h : data.add label bytes size = .ok data')
    (hchunk : data.chunk? name = some chunk) (hend : chunk.offset + chunk.size ≠ data.used) :
    name ≠ label := by
  rintro rfl
  obtain ⟨hfree, -⟩ := add_eq_ok h
  rw [add_eq_error hchunk hend hfree] at h
  cases h

end DataSegment

/-! ## Where the chunk of a label ends -/

namespace Declares

variable {locals : NameMap UInt32} {labels : Labels} {last : Option String}
  {data data' : DataSegment} {lines : List Line} {declarations : List Declaration}
  {name : String} {chunk : Chunk}

/-- The fill mark moves on by the bytes of the declarations. -/
theorem used_eq (h : Declares locals labels last data lines declarations data') :
    data'.used = data.used + (declarations.flatMap Declaration.bytes).length := by
  induction h with
  | nil => rfl
  | cons hdecode hlabel hadd hrest ih =>
    obtain ⟨-, -, -, hused, -⟩ := DataSegment.add_eq_ok hadd
    rw [List.flatMap_cons, List.length_append]
    omega

/-- A chunk that ends before the fill mark is as before. -/
theorem chunk?_of_lt_used (h : Declares locals labels last data lines declarations data')
    (hchunk : data.chunk? name = some chunk) (hlt : chunk.offset + chunk.size < data.used) :
    data'.chunk? name = some chunk := by
  induction h with
  | nil => exact hchunk
  | @cons _ data data₁ _ _ _ declaration _ label hdecode hlabel hadd hrest ih =>
    have hne : name ≠ label := DataSegment.ne_of_add hadd hchunk (Nat.ne_of_lt hlt)
    obtain ⟨-, -, -, hused, -⟩ := DataSegment.add_eq_ok hadd
    apply ih
    · rw [(DataSegment.add_ends hadd).2 name hne]
      exact hchunk
    · omega

/-- If a run declares under another label too, the chunk of the first one ends before the
fill mark. -/
theorem ends_below_used (h : Declares locals labels last data lines declarations data')
    (hchunk : data.chunk? name = some chunk) (hle : chunk.offset + chunk.size ≤ data.used)
    (hother : ∃ other ∈ dataLabels lines, String.ofList other ≠ name) :
    ∃ chunk, data'.chunk? name = some chunk ∧ chunk.offset + chunk.size < data'.used := by
  induction h generalizing chunk with
  | nil =>
    obtain ⟨other, hmem, -⟩ := hother
    cases hmem
  | @cons _ data data₁ data' line lines declaration declarations label hdecode hlabel hadd
      hrest ih =>
    obtain ⟨-, -, -, hused, -⟩ := DataSegment.add_eq_ok hadd
    obtain ⟨⟨new, hnew, hend⟩, hkept⟩ := DataSegment.add_ends hadd
    by_cases hsame : name = label
    · subst hsame
      -- The other label is behind this line.
      refine ih hnew (Nat.le_of_eq hend) ?_
      obtain ⟨other, hmem, hne⟩ := hother
      rcases mem_dataLabels_cons.1 hmem with hown | hmem
      · exfalso
        apply hne
        rw [dataLabel_of_own hdecode hown] at hlabel
        exact Except.ok.inj hlabel
      · exact ⟨other, hmem, hne⟩
    · -- This line moves the fill mark past the chunk.
      have hpos := Declaration.length_pos hdecode
      have hstay : data₁.chunk? name = some chunk := by
        rw [hkept name hsame]
        exact hchunk
      have hlt : chunk.offset + chunk.size < data₁.used := by omega
      have hmark := hrest.used_eq
      exact ⟨chunk, hrest.chunk?_of_lt_used hstay hlt, by omega⟩

section SingleLabel

variable (hlast : ∀ label, last = some label → label = name)
  (hlabels : ∀ other ∈ dataLabels lines, String.ofList other = name)
include hlast hlabels

theorem label_eq {symbols : Symbols} {line : Line} {rest : List Line}
    {declaration : Declaration} {label : String} (hlines : lines = line :: rest)
    (hdecode : Declaration.decode symbols line.text = .ok declaration)
    (hlabel : dataLabel last line declaration = .ok label) :
    label = name ∧ ∀ other ∈ dataLabels rest, String.ofList other = name := by
  subst hlines
  refine ⟨?_, fun other hmem => hlabels other (mem_dataLabels_cons.2 (Or.inr hmem))⟩
  rcases dataLabel_eq_ok hlabel with ⟨own, hown, rfl⟩ | hsame
  · rw [Declaration.label_eq hdecode] at hown
    exact hlabels own (mem_dataLabels_cons.2 (Or.inl hown))
  · exact hlast label hsame

/-- If a run declares under one label only, the chunk of the label ends at the fill mark. -/
theorem ends_at_used (h : Declares locals labels last data lines declarations data')
    (hne : lines ≠ []) :
    ∃ chunk, data'.chunk? name = some chunk ∧ chunk.offset + chunk.size = data'.used := by
  induction h with
  | nil => exact absurd rfl hne
  | @cons _ _ _ _ _ lines _ _ label hdecode hlabel hadd hrest ih =>
    obtain ⟨rfl, hmore⟩ := label_eq hlast hlabels rfl hdecode hlabel
    cases lines with
    | nil =>
      cases hrest
      exact (DataSegment.add_ends hadd).1
    | cons next lines => exact ih (fun _ hsome => (Option.some.inj hsome).symm) hmore (by simp)

/-- Then the run can be repeated behind the fill mark, if there is room for its bytes. -/
theorem again {new : DataSegment}
    (h : Declares locals labels last data lines declarations data')
    (hextends : Symbols.Extends ⟨locals, labels, data'⟩ ⟨locals, labels, new⟩)
    (hchunk : new.chunk? name = some chunk) (hend : chunk.offset + chunk.size = new.used)
    (hfree : (declarations.flatMap Declaration.bytes).length ≤ new.free) :
    ∃ new', Declares locals labels last new lines declarations new' := by
  induction h generalizing new chunk with
  | nil => exact ⟨new, .nil ..⟩
  | @cons _ data data₁ data' line lines declaration declarations label hdecode hlabel hadd
      hrest ih =>
    obtain ⟨rfl, hmore⟩ := label_eq hlast hlabels rfl hdecode hlabel
    have hdecode' := Declaration.decode_keeps
      ((Declares.cons hdecode hlabel hadd hrest).symbols_extend.trans hextends) _ _ hdecode
    rw [List.flatMap_cons, List.length_append] at hfree
    obtain ⟨new₁, hadd'⟩ := DataSegment.add_of_ends hchunk hend
      (by omega : declaration.bytes.length ≤ new.free)
    obtain ⟨-, -, hcapacity, hused, -⟩ := DataSegment.add_eq_ok hadd'
    obtain ⟨⟨chunk₁, hchunk₁, hend₁⟩, -⟩ := DataSegment.add_ends hadd'
    have hstep := (Declares.cons hdecode' hlabel hadd' (.nil ..)).symbols_extend
    have hroom : (declarations.flatMap Declaration.bytes).length ≤ new₁.free := by
      rw [DataSegment.free] at hfree ⊢
      omega
    obtain ⟨new', hrun⟩ := ih (fun _ hsome => (Option.some.inj hsome).symm) hmore
      (hextends.trans hstep) hchunk₁ hend₁ hroom
    exact ⟨new', .cons hdecode' hlabel hadd' hrun⟩

end SingleLabel

/-! ## The declarations of a compile -/

theorem declareAll_eq (h : Declares locals labels last data lines declarations data') :
    declareAll locals labels last lines data = .ok () data' := by
  induction h with
  | nil => rfl
  | @cons last data data₁ _ line _ _ _ label hdecode hlabel hadd _ ih =>
    have happend : appendDeclaration ⟨locals, labels, data⟩ last line = .ok (label, data₁) := by
      simp only [appendDeclaration, hdecode, Except.mapError, except_ok_bind, hlabel, hadd]
      rfl
    rw [declareAll]
    show EStateM.bind (declare locals labels last line) _ data = _
    simp only [EStateM.bind, declare_eq, happend]
    exact ih

/-- Nothing is declared if the first line is refused. -/
theorem declareAll_refused {line : Line} {declaration : Declaration} {label : String}
    {e : DataError}
    (hdecode : Declaration.decode ⟨locals, labels, data⟩ line.text = .ok declaration)
    (hlabel : dataLabel last line declaration = .ok label)
    (hadd : data.add label declaration.bytes declaration.bytes.length = .error e) :
    declareAll locals labels last (line :: lines) data = .error (line.dataError e) data := by
  have happend : appendDeclaration ⟨locals, labels, data⟩ last line =
      .error (line.dataError e) := by
    simp only [appendDeclaration, hdecode, Except.mapError, except_ok_bind, hlabel, hadd]
    rfl
  rw [declareAll]
  show EStateM.bind (declare locals labels last line) _ data = _
  simp only [EStateM.bind, declare_eq, happend]

/-- The declarations of a compile, made once more under one label. -/
theorem declareAll_again (h : Declares locals labels none data lines declarations data')
    (hfree : (declarations.flatMap Declaration.bytes).length ≤ data'.free)
    (hsingle : SingleLabel lines) :
    ∃ data'', declareAll locals labels none lines data' = .ok () data'' := by
  obtain ⟨label, hlabel⟩ := hsingle
  have hlabels : ∀ other ∈ dataLabels lines, String.ofList other = String.ofList label :=
    fun other hmem => congrArg String.ofList (hlabel other hmem)
  by_cases hnil : lines = []
  · subst hnil
    exact ⟨data', rfl⟩
  · obtain ⟨chunk, hchunk, hend⟩ := h.ends_at_used (by simp) hlabels hnil
    obtain ⟨data'', hrun⟩ := h.again (by simp) hlabels (.refl _) hchunk hend hfree
    exact ⟨data'', hrun.declareAll_eq⟩

/-- The first one is refused if they are under several labels. -/
theorem declareAll_again_refused
    (h : Declares locals labels none data lines declarations data')
    (hfree : (declarations.flatMap Declaration.bytes).length ≤ data'.free)
    (hseveral : ¬SingleLabel lines) :
    ∃ line rest label, lines = line :: rest ∧ line.dataLabel? = some label ∧
      declareAll locals labels none lines data' =
        .error (line.dataError (.notLastChunk (String.ofList label))) data' := by
  have hrun := h
  cases h with
  | nil => exact absurd ⟨[], by simp [dataLabels]⟩ hseveral
  | @cons _ _ data₁ _ line rest declaration declarations label hdecode hlabel hadd hrest =>
    obtain ⟨own, hown, rfl⟩ : ∃ own, declaration.label = some own ∧
        String.ofList own = label := by
      rcases dataLabel_eq_ok hlabel with hown | hlast
      · exact hown
      · cases hlast
    rw [Declaration.label_eq hdecode] at hown
    have hother := exists_other_label hown hseveral
    obtain ⟨⟨chunk, hchunk, hend⟩, -⟩ := DataSegment.add_ends hadd
    obtain ⟨chunk', hchunk', hlt⟩ := hrest.ends_below_used hchunk (Nat.le_of_eq hend) hother
    rw [List.flatMap_cons, List.length_append] at hfree
    have hroom : declaration.bytes.length ≤ data'.free := by omega
    have hrefused : data'.add (String.ofList own) declaration.bytes declaration.bytes.length =
        .error (.notLastChunk (String.ofList own)) :=
      DataSegment.add_eq_error hchunk' (Nat.ne_of_lt hlt) hroom
    have hdecode' := Declaration.decode_keeps hrun.symbols_extend _ _ hdecode
    exact ⟨line, rest, own, rfl, hown, declareAll_refused hdecode' hlabel hrefused⟩

end Declares

/-! ## Compiling again -/

/-- What a compile has declared, and what a second compile does: it declares the same lines
again, and it answers the same procedure if it can. -/
theorem compileInto_again {source : String} {data data' : DataSegment} {procedure : Procedure}
    (h : compileInto source data = .ok procedure data') :
    ∃ body declarations, splitHeader? (Line.ofSource source) = some (procedure.name, body) ∧
      Declares procedure.locals procedure.labels none data (dataLines body) declarations data' ∧
      compileInto source data' =
        match declareAll procedure.locals procedure.labels none (dataLines body) data' with
        | .error e _ => .error e data'
        | .ok () data'' => .ok procedure data'' := by
  obtain ⟨body, hheader, -, -, hassemble⟩ := compileInto_eq_ok h
  obtain ⟨⟨declarations, hrun⟩, hcode⟩ := assemble_eq_ok hassemble
  refine ⟨body, declarations, hheader, hrun, ?_⟩
  rw [compileInto, hheader] at h ⊢
  replace h : compileBody procedure.name body data = .ok procedure data' := h
  show compileBody procedure.name body data' = _
  rw [compileBody_eq] at h ⊢
  split at h
  · cases h
  next hclosed =>
  split at h
  · cases h
  next hcount =>
  split at h
  · cases h
  have hprocedure := (EStateM.Result.ok.inj h).1
  have hlocals : (survey body).locals = procedure.locals :=
    congrArg Procedure.locals hprocedure
  have hlabels : Labels.resolve (survey body).labels = procedure.labels :=
    congrArg Procedure.labels hprocedure
  rw [if_neg hclosed, if_neg hcount, hlocals, hlabels, assemble_eq_declareAll hcode, dataLines]
  cases declareAll procedure.locals procedure.labels none
    (linesOf .data (outline .code body)) data' <;> rfl

namespace ProcedureStore

variable {store store' : ProcedureStore} {source : String}

theorem insert_erase (store : ProcedureStore) (procedure : Procedure) :
    ((store.insert procedure).erase procedure.name).insert procedure = store.insert procedure := by
  have hsame : (((store.procedures.insert procedure.name procedure).erase
      procedure.name).insert procedure.name procedure) =
        store.procedures.insert procedure.name procedure := by
    refine NameMap.ext_get? fun key => ?_
    rw [NameMap.get?_insert, NameMap.get?_erase, NameMap.get?_insert]
    split <;> rfl
  exact congrArg ProcedureStore.mk hsame

/-- What a compile that was not answered from the store has done. -/
theorem compile_eq_ok {data data' : DataSegment} {procedure : Procedure}
    (hfresh : store.cached? source = none)
    (h : ProcedureStore.compile source (store, data) = .ok procedure (store', data')) :
    store' = store.insert procedure ∧ compileInto source data = .ok procedure data' := by
  simp only [ProcedureStore.compile, hfresh] at h
  cases hinto : compileInto source data with
  | error e data₁ =>
    rw [hinto] at h
    cases h
  | ok found data₁ =>
    rw [hinto] at h
    cases h
    exact ⟨rfl, rfl⟩

/-- A procedure is taken out of the store and its listing is compiled again, with room for
the bytes that its declarations took.  If they are under one label the answer is the same
procedure, and the store is as it was.  If they are under several, the first declaration is
refused, and nothing changes. -/
theorem compile_erase {data data' : DataSegment} {procedure : Procedure}
    (hfresh : store.cached? source = none)
    (h : ProcedureStore.compile source (store, data) = .ok procedure (store', data'))
    (hfree : data'.used - data.used ≤ data'.free) :
    ∃ body, splitHeader? (Line.ofSource source) = some (procedure.name, body) ∧
      (SingleLabel (dataLines body) → ∃ data'',
        ProcedureStore.compile source (store'.erase procedure.name, data') =
          .ok procedure (store', data'')) ∧
      (¬SingleLabel (dataLines body) → ∃ line lines label, dataLines body = line :: lines ∧
        line.dataLabel? = some label ∧
        ProcedureStore.compile source (store'.erase procedure.name, data') =
          .error (line.dataError (.notLastChunk (String.ofList label)))
            (store'.erase procedure.name, data')) := by
  obtain ⟨hstore, hfirst⟩ := compile_eq_ok hfresh h
  obtain ⟨body, declarations, hheader, hrun, hagain⟩ := compileInto_again hfirst
  have hgone : (store'.erase procedure.name).cached? source = none := by
    rw [cached?, procedureName?, hheader]
    show (store'.erase procedure.name).procedures.get? procedure.name = none
    rw [erase, NameMap.get?_erase, if_pos rfl]
  have hroom : (declarations.flatMap Declaration.bytes).length ≤ data'.free := by
    have hused := hrun.used_eq
    omega
  refine ⟨body, hheader, ?_, ?_⟩
  · intro hsingle
    obtain ⟨data'', hsecond⟩ := hrun.declareAll_again hroom hsingle
    refine ⟨data'', ?_⟩
    simp only [ProcedureStore.compile, hgone, hagain, hsecond]
    rw [hstore, insert_erase]
  · intro hseveral
    obtain ⟨line, rest, label, hlines, hlabel, hsecond⟩ :=
      hrun.declareAll_again_refused hroom hseveral
    refine ⟨line, rest, label, hlines, hlabel, ?_⟩
    simp only [ProcedureStore.compile, hgone, hagain, hsecond]

/-- A listing with one data label, whose bytes are on two lines. -/
def rowListing : String :=
  "f proc near\n.data\nx db 1\ndb 2\n.code\nmov eax, offset x\nretn\nf endp"

theorem compile_erase_rowListing :
    ∃ procedure store' data' data'',
      ProcedureStore.compile rowListing (empty, .new 16) = .ok procedure (store', data') ∧
        ProcedureStore.compile rowListing (store'.erase procedure.name, data') =
          .ok procedure (store', data'') := by
  have hroom : (match ProcedureStore.compile rowListing (empty, .new 16) with
      | .ok _ (_, data') => decide (data'.used ≤ data'.free)
      | .error .. => false) = true := by decide +kernel
  have hlabels : (splitHeader? (Line.ofSource rowListing)).map
      (fun header => dataLabels (dataLines header.2)) = some [['x']] := by decide +kernel
  cases h : ProcedureStore.compile rowListing (empty, .new 16) with
  | error e state =>
    rw [h] at hroom
    cases hroom
  | ok procedure state =>
    obtain ⟨store', data'⟩ := state
    rw [h] at hroom
    have hfree : data'.used - (DataSegment.new 16).used ≤ data'.free := of_decide_eq_true hroom
    obtain ⟨body, hheader, hagain, -⟩ := compile_erase (by rfl) h hfree
    have hsingle : SingleLabel (dataLines body) := by
      rw [hheader] at hlabels
      have hlabels : dataLabels (dataLines body) = [['x']] := Option.some.inj hlabels
      refine ⟨['x'], fun other hmem => ?_⟩
      rw [hlabels] at hmem
      exact List.mem_singleton.1 hmem
    obtain ⟨data'', hsecond⟩ := hagain hsingle
    exact ⟨procedure, store', data', data'', rfl, hsecond⟩

/-- A listing with two data labels. -/
def pairListing : String :=
  "f proc near\n.data\nx db 1\ny db 2\n.code\nretn\nf endp"

/-- Not every procedure that was taken out of the store can be compiled again. -/
theorem not_compile_erase :
    ¬∀ (source : String) (store store' : ProcedureStore) (data data' : DataSegment)
        (procedure : Procedure), store.cached? source = none →
      ProcedureStore.compile source (store, data) = .ok procedure (store', data') →
      data'.used - data.used ≤ data'.free →
      ∃ state, ProcedureStore.compile source (store'.erase procedure.name, data') =
        .ok procedure state := by
  intro hall
  have hfails : (match ProcedureStore.compile pairListing (empty, .new 16) with
      | .ok procedure (store', data') =>
        decide (data'.used ≤ data'.free) &&
          match ProcedureStore.compile pairListing (store'.erase procedure.name, data') with
          | .ok .. => false
          | .error e _ => decide (e.code = .duplicateData)
      | .error .. => false) = true := by decide +kernel
  cases h : ProcedureStore.compile pairListing (empty, .new 16) with
  | error e state =>
    rw [h] at hfails
    cases hfails
  | ok procedure state =>
    obtain ⟨store', data'⟩ := state
    rw [h] at hfails
    obtain ⟨hfree, hsecond⟩ := Bool.and_eq_true_iff.1 hfails
    obtain ⟨state, hok⟩ := hall pairListing empty store' (.new 16) data' procedure (by rfl) h
      (of_decide_eq_true hfree)
    rw [hok] at hsecond
    cases hsecond

end ProcedureStore

end X86Listing
