import X86Listing.Procedure.Compile
import X86Listing.Proofs.DataSegment.Append
import X86Listing.Proofs.Procedure.Outline
import X86Listing.Proofs.Procedure.Refusal
import X86Listing.Proofs.Symbols.Growth

/-!
# The second reading of a procedure

`Declares` is the run of the declarations of a procedure: each one is decoded with
the data segment that the ones before it leave, and appended to that segment.  A
run appends the bytes of its declarations (`Declares.appends`), and it keeps the
address of every name (`Declares.symbols_extend`).

The second reading does two things at once.  `assemble_eq_ok` takes them apart: it
is a run of the data lines of the outline, and each code line decodes to its
instruction with the symbols at the end of the run.

`compileInto_eq_ok` and `compileInto_eq_error` say what it means for a compile to
succeed and to fail.  Later proofs start from these two and open neither reading.
`compileInto_of_decodes` is the other direction for a listing without data, whose
code lines can be decoded once for all data segments.
-/

namespace X86Listing

/-! ## Declarations in a row -/

/-- The declarations of a list of lines, each decoded with the data segment that
the ones before it leave and then appended to that segment.  `last` is the label
of the declaration before the first line. -/
inductive Declares (locals : NameMap UInt32) (labels : Labels) :
    Option String → DataSegment → List Line → List Declaration → DataSegment → Prop where
  | nil (last : Option String) (data : DataSegment) :
      Declares locals labels last data [] [] data
  | cons {last : Option String} {data data₁ data' : DataSegment} {line : Line}
      {lines : List Line} {declaration : Declaration} {declarations : List Declaration}
      {label : String}
      (hdecode : Declaration.decode ⟨locals, labels, data⟩ line.text = .ok declaration)
      (hlabel : dataLabel last line declaration = .ok label)
      (hadd : data.add label declaration.bytes declaration.bytes.length = .ok data₁)
      (hrest : Declares locals labels (some label) data₁ lines declarations data') :
      Declares locals labels last data (line :: lines) (declaration :: declarations) data'

namespace Declares

variable {locals : NameMap UInt32} {labels : Labels} {last : Option String}
  {data data' : DataSegment} {lines : List Line} {declarations : List Declaration}

/-- The run keeps the address of every name. -/
theorem symbols_extend (h : Declares locals labels last data lines declarations data') :
    Symbols.Extends ⟨locals, labels, data⟩ ⟨locals, labels, data'⟩ where
  locals_eq := rfl
  labels_eq := rfl
  address?_eq {name address} hname := by
    induction h with
    | nil => exact hname
    | cons _ _ hadd _ ih => exact ih ((DataSegment.appends_of_add hadd).address?_eq hname)

theorem sound {capacity : Nat} (h : Declares locals labels last data lines declarations data')
    (hsound : data.Sound capacity) : data'.Sound capacity := by
  induction h with
  | nil => exact hsound
  | cons _ _ hadd _ ih => exact ih (hsound.add hadd)

/-- The run is part of the history of the segment. -/
theorem reachable {capacity : Nat}
    (h : Declares locals labels last data lines declarations data')
    (hreach : data.Reachable capacity) : data'.Reachable capacity := by
  induction h with
  | nil => exact hreach
  | cons _ _ hadd _ ih => exact ih (hreach.add hadd)

/-- The run appends the bytes of its declarations, in order. -/
theorem appends {capacity : Nat} (h : Declares locals labels last data lines declarations data')
    (hsound : data.Sound capacity) :
    data.Appends (declarations.flatMap Declaration.bytes) data' := by
  induction h with
  | nil => exact .refl _
  | cons _ _ hadd _ ih =>
    have hfirst := DataSegment.appends_of_add hadd
    rw [DataSegment.content_length] at hfirst
    exact hfirst.trans (ih (hsound.add hadd)) hsound.chunk_le

/-- With the symbols at the end of the run each line still decodes to its
declaration. -/
theorem decode_eq (h : Declares locals labels last data lines declarations data') :
    lines.map (fun line => Declaration.decode ⟨locals, labels, data'⟩ line.text) =
      declarations.map .ok := by
  induction h with
  | nil => rfl
  | cons hdecode hlabel hadd hrest ih =>
    have hfinal := (Declares.cons hdecode hlabel hadd hrest).symbols_extend
    rw [List.map_cons, List.map_cons, ih, Declaration.decode_keeps hfinal _ _ hdecode]

/-- A label that was declared on the way names a chunk. -/
theorem chunk?_of_label (h : Declares locals labels last data lines declarations data')
    {declaration : Declaration} (hmem : declaration ∈ declarations) {label : List Char}
    (hlabel : declaration.label = some label) :
    ∃ chunk, data'.chunk? (String.ofList label) = some chunk := by
  induction h with
  | nil => cases hmem
  | @cons last data data₁ data' line lines first declarations name _ hname hadd hrest ih =>
    rcases List.mem_cons.1 hmem with rfl | hmem
    · obtain rfl : String.ofList label = name := by
        simp only [dataLabel, hlabel] at hname
        exact Except.ok.inj hname
      obtain ⟨-, -, -, -, ⟨chunk, -, hchunks⟩, -⟩ := DataSegment.add_eq_ok hadd
      have hnow : data₁.chunk? (String.ofList label) = some chunk := by
        rw [hchunks, if_pos rfl]
      have haddress : data₁.address? (String.ofList label) =
          some (dataBase + UInt32.ofNat chunk.offset) := by
        rw [DataSegment.address?, hnow, Option.map_some]
      obtain ⟨chunk', hchunk', -⟩ :=
        Option.map_eq_some_iff.1 (hrest.symbols_extend.address?_eq haddress)
      exact ⟨chunk', hchunk'⟩
    · exact ih hmem

end Declares

/-! ## Steps of the second reading -/

section Steps

variable {locals : NameMap UInt32} {labels : Labels} {last : Option String} {line : Line}
  {data data' : DataSegment}

theorem declare_eq_ok {label : String}
    (h : declare locals labels last line data = .ok label data') :
    ∃ declaration, Declaration.decode ⟨locals, labels, data⟩ line.text = .ok declaration ∧
      dataLabel last line declaration = .ok label ∧
      data.add label declaration.bytes declaration.bytes.length = .ok data' := by
  obtain ⟨found, data₁, hget, h⟩ := bind_eq_ok h
  cases hget
  cases happend : appendDeclaration ⟨locals, labels, data⟩ last line with
  | error e =>
    rw [happend] at h
    cases h
  | ok result =>
    rw [happend] at h
    cases h
    obtain ⟨declaration, hdecode, h⟩ := except_bind_eq_ok happend
    obtain ⟨name, hlabel, h⟩ := except_bind_eq_ok h
    obtain ⟨segment, hadd, h⟩ := except_bind_eq_ok h
    cases h
    exact ⟨declaration, mapError_eq_ok hdecode, hlabel, mapError_eq_ok hadd⟩

theorem decodeLine_eq_ok {instruction : Instruction}
    (h : decodeLine locals labels line data = .ok instruction data') :
    data' = data ∧ decode ⟨locals, labels, data⟩ line.text = .ok instruction := by
  obtain ⟨found, data₁, hget, h⟩ := bind_eq_ok h
  cases hget
  cases hdecode : decode ⟨locals, labels, data⟩ line.text with
  | error e =>
    rw [hdecode] at h
    cases h
  | ok found =>
    rw [hdecode] at h
    cases h
    exact ⟨rfl, rfl⟩

end Steps

/-! ## The second reading -/

/-- The locals that open a body are passed over in either section. -/
theorem assemble_behindLocals (locals : NameMap UInt32) (labels : Labels) (current : Section)
    (last : Option String) (body : List Line) :
    assemble locals labels current last (behindLocals body) =
      assemble locals labels current last body := by
  induction body with
  | nil => rfl
  | cons line rest ih =>
    unfold behindLocals at ih ⊢
    cases hlocal : local? line.text with
    | none => simp [hlocal]
    | some found =>
      have hkind : LineKind.switchFirst current line.text = .localName found.1 found.2 := by
        rw [LineKind.switchFirst_eq_of, LineKind.of, hlocal]
      rw [List.dropWhile_cons_of_pos (by simp [hlocal]), ih]
      conv_rhs => rw [assemble, hkind]

/-- The second reading is a run of the data lines, and with the symbols at its end
each code line decodes to its instruction. -/
theorem assemble_eq_ok {locals : NameMap UInt32} {labels : Labels} {current : Section}
    {last : Option String} {body : List Line} {data data' : DataSegment}
    {instructions : List Instruction}
    (h : assemble locals labels current last body data = .ok instructions data') :
    (∃ declarations, Declares locals labels last data (linesOf .data (outline current body))
        declarations data') ∧
      (linesOf .code (outline current body)).map
        (fun line => decode ⟨locals, labels, data'⟩ line.text) = instructions.map .ok := by
  fun_induction assemble locals labels current last body generalizing data instructions with
  | case1 =>
    cases h
    exact ⟨⟨[], .nil ..⟩, rfl⟩
  | case2 current last line rest name value hkind ih =>
    rw [LineKind.switchFirst_eq_of] at hkind
    rw [outline_cons hkind (by simp) (by simp), linesOf_cons_of_ne (by simp),
      linesOf_cons_of_ne (by simp)]
    exact ih h
  | case3 current last line rest target hkind ih =>
    rw [LineKind.switchFirst_eq_of] at hkind
    rw [outline_cons_switch hkind, linesOf_cons_of_ne (by simp), linesOf_cons_of_ne (by simp)]
    exact ih h
  | case4 current last line rest hkind ih =>
    rw [LineKind.switchFirst_eq_of] at hkind
    rw [outline_cons hkind (by simp) (by simp), linesOf_cons_self, linesOf_cons_of_ne (by simp)]
    obtain ⟨label, data₁, hdeclare, hrest⟩ := bind_eq_ok h
    obtain ⟨declaration, hdecode, hlabel, hadd⟩ := declare_eq_ok hdeclare
    obtain ⟨⟨declarations, hdeclarations⟩, hcode⟩ := ih label hrest
    exact ⟨⟨_, .cons hdecode hlabel hadd hdeclarations⟩, hcode⟩
  | case5 current last line rest name hkind ih =>
    rw [LineKind.switchFirst_eq_of] at hkind
    rw [outline_cons hkind (by simp) (by simp), linesOf_cons_of_ne (by simp),
      linesOf_cons_of_ne (by simp)]
    exact ih h
  | case6 current last line rest hkind =>
    rw [LineKind.switchFirst_eq_of] at hkind
    rw [outline_cons_closing hkind]
    cases h
    exact ⟨⟨[], .nil ..⟩, rfl⟩
  | case7 current last line rest hkind ih =>
    rw [LineKind.switchFirst_eq_of] at hkind
    rw [outline_cons hkind (by simp) (by simp), linesOf_cons_self, linesOf_cons_of_ne (by simp)]
    obtain ⟨instruction, data₁, hline, htail⟩ := bind_eq_ok h
    obtain ⟨rfl, hdecode⟩ := decodeLine_eq_ok hline
    obtain ⟨more, data₂, hrest, hreturn⟩ := bind_eq_ok htail
    cases hreturn
    obtain ⟨⟨declarations, hdeclarations⟩, hcode⟩ := ih hrest
    refine ⟨⟨declarations, hdeclarations⟩, ?_⟩
    rw [List.map_cons, List.map_cons, hcode,
      decode_keeps hdeclarations.symbols_extend _ _ hdecode]

/-! ## Compiling -/

/-- A label of the table stands for the code address behind its last line. -/
theorem resolve_survey_labels {body : List Line} {name : List Char} {address : UInt32} :
    (Labels.resolve (survey body).labels).get? (String.ofList name) = some address ↔
      ∃ index, LabelAt (outline .code body) name index ∧ codeAddress index = address := by
  rw [Labels.resolve, NameMap.get?_mapValues, Option.map_eq_some_iff]
  simp only [survey_labels]

/-- Both readings find the same number of instructions. -/
theorem assemble_length {locals : NameMap UInt32} {labels : Labels} {last : Option String}
    {body : List Line} {data data' : DataSegment} {instructions : List Instruction}
    (h : assemble locals labels .code last body data = .ok instructions data') :
    instructions.length = (survey body).count := by
  have hcode := congrArg List.length (assemble_eq_ok h).2
  rw [List.length_map, List.length_map] at hcode
  rw [survey_count, ← hcode, codeLines]

/-- A compile as one case distinction.  All errors answer the data segment from
before, and the count of the first reading is always met. -/
theorem compileBody_eq (name : String) (body : List Line) (data : DataSegment) :
    compileBody name body data =
      if !(survey body).closed then
        .error (.unlocated .missingEnd s!"procedure '{name}' has no `endp`") data
      else if (survey body).count = 0 then
        .error (.unlocated .emptyProcedure s!"procedure '{name}' has no instructions") data
      else
        match assemble (survey body).locals (Labels.resolve (survey body).labels) .code none
            body data with
        | .error e _ => .error e data
        | .ok instructions data' =>
          .ok ⟨name, (survey body).locals, Labels.resolve (survey body).labels,
            instructions.toArray⟩ data' := by
  unfold compileBody
  simp only
  split
  · rfl
  · split
    · rfl
    · show EStateM.bind _ _ _ = _
      rw [assemble_behindLocals]
      cases h : assemble (survey body).locals (Labels.resolve (survey body).labels) .code none
          body data with
      | error e data' =>
        simp only [EStateM.bind, bind, tryCatch, tryCatchThe, MonadExceptOf.tryCatch,
          EStateM.tryCatch, get_eq_ok, h]
        rfl
      | ok instructions data' =>
        simp only [EStateM.bind, bind, tryCatch, tryCatchThe, MonadExceptOf.tryCatch,
          EStateM.tryCatch, get_eq_ok, h]
        rw [if_neg (not_not.2 (assemble_length h))]
        rfl

/-- A compile that fails leaves the data segment as it was, and never because of
the number of instructions. -/
theorem compileBody_eq_error {name : String} {body : List Line} {data data' : DataSegment}
    {e : CompileError} (h : compileBody name body data = .error e data') :
    data' = data ∧ e.code ≠ .countMismatch := by
  rw [compileBody_eq] at h
  split at h
  · cases h
    exact ⟨rfl, show ErrorCode.missingEnd ≠ .countMismatch by decide⟩
  split at h
  · cases h
    exact ⟨rfl, show ErrorCode.emptyProcedure ≠ .countMismatch by decide⟩
  split at h
  · next hassemble =>
    cases h
    obtain ⟨accepted, refused, rest, -, hstops⟩ := assemble_eq_error hassemble
    exact ⟨rfl, ne_of_mem_of_not_mem hstops.refusedWith.code_mem (by decide)⟩
  · cases h

/-- What a compile that succeeds has done. -/
theorem compileBody_eq_ok {name : String} {body : List Line} {data data' : DataSegment}
    {procedure : Procedure} (h : compileBody name body data = .ok procedure data') :
    procedure.name = name ∧ procedure.locals = declaredLocals body ∧
      procedure.labels = Labels.resolve (survey body).labels ∧
      assemble procedure.locals procedure.labels .code none body data =
        .ok procedure.instructions.toList data' := by
  rw [compileBody_eq] at h
  split at h
  · cases h
  split at h
  · cases h
  split at h
  · cases h
  · next hassemble =>
    cases h
    exact ⟨rfl, survey_locals body, rfl, hassemble⟩

theorem compileInto_eq_error {source : String} {data data' : DataSegment} {e : CompileError}
    (h : compileInto source data = .error e data') :
    data' = data ∧ e.code ≠ .countMismatch := by
  unfold compileInto at h
  cases hheader : splitHeader? (Line.ofSource source) with
  | none =>
    rw [hheader] at h
    cases h
    exact ⟨rfl, show ErrorCode.missingHeader ≠ .countMismatch by decide⟩
  | some found =>
    rw [hheader] at h
    exact compileBody_eq_error h

theorem compileInto_eq_ok {source : String} {data data' : DataSegment} {procedure : Procedure}
    (h : compileInto source data = .ok procedure data') :
    ∃ body, splitHeader? (Line.ofSource source) = some (procedure.name, body) ∧
      procedure.locals = declaredLocals body ∧
      procedure.labels = Labels.resolve (survey body).labels ∧
      assemble procedure.locals procedure.labels .code none body data =
        .ok procedure.instructions.toList data' := by
  unfold compileInto at h
  cases hheader : splitHeader? (Line.ofSource source) with
  | none =>
    rw [hheader] at h
    cases h
  | some found =>
    rw [hheader] at h
    obtain ⟨hname, hrest⟩ := compileBody_eq_ok h
    exact ⟨found.2, by rw [hname], hrest⟩

/-- A compile is part of the history of the segment, however it ends. -/
theorem compileInto_reachable {source : String} {capacity : Nat} {data data' : DataSegment}
    (hreach : data.Reachable capacity) (h : Leaves (compileInto source) data data') :
    data'.Reachable capacity := by
  rcases h with ⟨procedure, hok⟩ | ⟨e, herror⟩
  · obtain ⟨body, -, -, -, hassemble⟩ := compileInto_eq_ok hok
    obtain ⟨declarations, hrun⟩ := (assemble_eq_ok hassemble).1
    exact hrun.reachable hreach
  · rw [(compileInto_eq_error herror).1]
    exact hreach

theorem compile_eq_ok {source : String} {data data' : DataSegment} {procedure : Procedure}
    (h : compile source data = .ok (procedure, data')) :
    compileInto source data = .ok procedure data' := by
  unfold compile at h
  split at h
  · next hinto =>
    cases h
    exact hinto
  · cases h

/-- The code lines of a body are the instructions of its procedure, one by one, and every
label stands for the code address behind its last line. -/
theorem compile_codeLines {source : String} {data data' : DataSegment} {procedure : Procedure}
    {body : List Line} (h : compile source data = .ok (procedure, data'))
    (hbody : splitHeader? (Line.ofSource source) = some (procedure.name, body)) :
    procedure.length = (codeLines body).length ∧
      (∀ pc line, (codeLines body)[pc]? = some line → ∃ instruction,
        procedure.instruction? pc = some instruction ∧
          decode ⟨procedure.locals, procedure.labels, data'⟩ line.text = .ok instruction) ∧
      ∀ name index, LabelAt (outline .code body) name index →
        procedure.labels.get? (String.ofList name) = some (codeAddress index) := by
  obtain ⟨body', hbody', -, hlabels, hassemble⟩ := compileInto_eq_ok (compile_eq_ok h)
  obtain rfl : body = body' := by
    rw [hbody] at hbody'
    exact (Prod.mk.inj (Option.some.inj hbody')).2
  have hcode := (assemble_eq_ok hassemble).2
  refine ⟨?_, ?_, ?_⟩
  · have hcount := congrArg List.length hcode
    rw [List.length_map, List.length_map] at hcount
    exact hcount.symm
  · intro pc line hline
    have hmap := congrArg (·[pc]?) hcode
    rw [codeLines] at hline
    simp only [List.getElem?_map, hline, Option.map_some] at hmap
    obtain ⟨instruction, hinstruction, hok⟩ := Option.map_eq_some_iff.1 hmap.symm
    exact ⟨instruction, by simpa [Procedure.instruction?] using hinstruction, hok.symm⟩
  · intro name index hindex
    rw [hlabels]
    exact resolve_survey_labels.2 ⟨index, hindex, rfl⟩

/-! ## Code that decodes beforehand -/

/-- Lines that decode with old symbols decode with new ones. -/
theorem map_decode_keeps {old new : Symbols} (h : old.Extends new) {lines : List Line}
    {instructions : List Instruction}
    (hold : lines.map (fun line => decode old line.text) = instructions.map .ok) :
    lines.map (fun line => decode new line.text) = instructions.map .ok := by
  induction lines generalizing instructions with
  | nil => exact hold
  | cons line lines ih =>
    obtain ⟨instruction, more, rfl, hfirst, hrest⟩ := List.map_eq_cons_iff.1 hold.symm
    rw [List.map_cons, List.map_cons, ih hrest.symm, decode_keeps h _ _ hfirst.symm]

/-- Adds the data that a list of lines declares to the data segment. -/
def declareAll (locals : NameMap UInt32) (labels : Labels) (last : Option String) :
    List Line → Assembly Unit
  | [] => return ()
  | line :: lines => do
    let label ← declare locals labels last line
    declareAll locals labels (some label) lines

theorem declare_eq (locals : NameMap UInt32) (labels : Labels) (last : Option String)
    (line : Line) (data : DataSegment) :
    declare locals labels last line data =
      match appendDeclaration ⟨locals, labels, data⟩ last line with
      | .error e => .error e data
      | .ok (label, data') => .ok label data' := by
  simp only [declare, bind, EStateM.bind, get_eq_ok]
  cases appendDeclaration ⟨locals, labels, data⟩ last line <;> rfl

theorem decodeLine_eq (locals : NameMap UInt32) (labels : Labels) (line : Line)
    (data : DataSegment) :
    decodeLine locals labels line data =
      match decode ⟨locals, labels, data⟩ line.text with
      | .error e => .error (line.decodeError e) data
      | .ok instruction => .ok instruction data := by
  simp only [decodeLine, bind, EStateM.bind, get_eq_ok]
  cases decode ⟨locals, labels, data⟩ line.text <;> rfl

/-- If every code line decodes before anything is declared, the second reading does nothing
but to declare the data lines. -/
theorem assemble_eq_declareAll {locals : NameMap UInt32} {labels : Labels} {current : Section}
    {last : Option String} {body : List Line} {data : DataSegment}
    {instructions : List Instruction}
    (hcode : (linesOf .code (outline current body)).map
      (fun line => decode ⟨locals, labels, data⟩ line.text) = instructions.map .ok) :
    assemble locals labels current last body data =
      match declareAll locals labels last (linesOf .data (outline current body)) data with
      | .error e data' => .error e data'
      | .ok () data' => .ok instructions data' := by
  fun_induction assemble locals labels current last body generalizing data instructions with
  | case1 =>
    obtain rfl := List.map_eq_nil_iff.1 hcode.symm
    rfl
  | case2 current last line rest name value hkind ih =>
    rw [LineKind.switchFirst_eq_of] at hkind
    rw [outline_cons hkind (by simp) (by simp), linesOf_cons_of_ne (by simp)] at hcode ⊢
    exact ih hcode
  | case3 current last line rest target hkind ih =>
    rw [LineKind.switchFirst_eq_of] at hkind
    rw [outline_cons_switch hkind, linesOf_cons_of_ne (by simp)] at hcode ⊢
    exact ih hcode
  | case4 current last line rest hkind ih =>
    rw [LineKind.switchFirst_eq_of] at hkind
    rw [outline_cons hkind (by simp) (by simp)] at hcode ⊢
    rw [linesOf_cons_of_ne (by simp)] at hcode
    rw [linesOf_cons_self, declareAll]
    show EStateM.bind (declare locals labels last line) _ data =
      match EStateM.bind (declare locals labels last line) _ data with
      | .error e data' => .error e data'
      | .ok () data' => .ok instructions data'
    cases hdeclare : declare locals labels last line data with
    | error e data₁ => simp only [EStateM.bind, hdeclare]
    | ok label data₁ =>
      obtain ⟨declaration, hdecode, hlabel, hadd⟩ := declare_eq_ok hdeclare
      have hstep := (Declares.cons hdecode hlabel hadd (.nil ..)).symbols_extend
      simp only [EStateM.bind, hdeclare]
      exact ih label (map_decode_keeps hstep hcode)
  | case5 current last line rest name hkind ih =>
    rw [LineKind.switchFirst_eq_of] at hkind
    rw [outline_cons hkind (by simp) (by simp), linesOf_cons_of_ne (by simp)] at hcode ⊢
    exact ih hcode
  | case6 current last line rest hkind =>
    rw [LineKind.switchFirst_eq_of] at hkind
    rw [outline_cons_closing hkind] at hcode ⊢
    obtain rfl := List.map_eq_nil_iff.1 hcode.symm
    rfl
  | case7 current last line rest hkind ih =>
    rw [LineKind.switchFirst_eq_of] at hkind
    rw [outline_cons hkind (by simp) (by simp)] at hcode ⊢
    rw [linesOf_cons_of_ne (by simp)]
    rw [linesOf_cons_self, List.map_cons] at hcode
    obtain ⟨instruction, more, rfl, hdecode, hrest⟩ := List.map_eq_cons_iff.1 hcode.symm
    have hline : decodeLine locals labels line data = .ok instruction data := by
      rw [decodeLine_eq, ← hdecode]
    show EStateM.bind (decodeLine locals labels line) _ data = _
    simp only [EStateM.bind, hline, bind, ih hrest.symm]
    cases declareAll locals labels last (linesOf .data (outline current rest)) data <;> rfl

/-- A listing without data lines compiles into any data segment if its code lines need no
data label, and it leaves the segment as it was. -/
theorem compileInto_of_decodes {source name : String} {body : List Line}
    {instructions : List Instruction}
    (hheader : splitHeader? (Line.ofSource source) = some (name, body))
    (hclosed : (survey body).closed = true) (hdata : dataLines body = [])
    (hcode : (codeLines body).map (fun line =>
        decode ⟨(survey body).locals, Labels.resolve (survey body).labels, .new 0⟩ line.text) =
      instructions.map .ok)
    (hne : instructions ≠ []) (data : DataSegment) :
    compileInto source data =
      .ok ⟨name, (survey body).locals, Labels.resolve (survey body).labels,
        instructions.toArray⟩ data := by
  have hcount : (survey body).count ≠ 0 := by
    have hlength := congrArg List.length hcode
    rw [List.length_map, List.length_map] at hlength
    rw [survey_count, hlength]
    exact fun h => hne (List.length_eq_zero_iff.1 h)
  have hhere := map_decode_keeps (Symbols.extends_blank _ _ data) hcode
  rw [compileInto, hheader]
  show compileBody name body data = _
  rw [dataLines] at hdata
  rw [compileBody_eq, hclosed, if_neg (by simp), if_neg hcount, assemble_eq_declareAll hhere,
    hdata]
  rfl

end X86Listing
