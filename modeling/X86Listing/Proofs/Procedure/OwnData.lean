import X86Listing.Proofs.DataSegment.History
import X86Listing.Proofs.Procedure.Recompile

/-!
# Whose bytes a data label names

Listings are compiled one after the other into one data segment, and each of them may use
the label of an earlier one.  `compile_ownBytes` says what the labels of a listing name after
its compile.

A label that is new names the bytes that the listing declares for it, and they lie behind
all that was declared before.  A label that is not new is taken to go on with the bytes of
the earlier listing, whose address it keeps.  This happens to the first label of a listing
alone, and only if no other label was declared since.  In all other cases the compile is
refused.

* `ownBytes` are the bytes that a list of declarations declares under a name.
* `Declares.bytesOf?_eq` says that a run of them adds these bytes to the ones that were
  there.
* `Declares.offset_ge` and `Declares.head_of_chunk?` say where the chunk of a label is that
  is new, and of one that is not.
-/

namespace X86Listing

/-! ## Declarations of a name -/

/-- The name that a declaration is under: its own label, or the last one before it. -/
def Declaration.under? (last : Option String) (declaration : Declaration) : Option String :=
  (declaration.label.map String.ofList).or last

/-- The bytes that declarations declare under a name.  Those without a label go on with the
last label before them. -/
def ownBytes (name : String) (last : Option String) : List Declaration → List UInt8
  | [] => []
  | declaration :: declarations =>
    (if declaration.under? last = some name then declaration.bytes else []) ++
      ownBytes name (declaration.under? last) declarations

theorem under?_of_dataLabel {last : Option String} {line : Line} {declaration : Declaration}
    {label : String} (h : dataLabel last line declaration = .ok label) :
    declaration.under? last = some label := by
  unfold dataLabel at h
  rw [Declaration.under?]
  split at h
  · next own _ hown =>
    rw [hown, ← Except.ok.inj h]
    rfl
  · next own hown =>
    rw [hown, ← Except.ok.inj h]
    rfl
  · cases h

namespace Declares

variable {locals : NameMap UInt32} {labels : Labels} {last : Option String} {capacity : Nat}
  {data data' : DataSegment} {lines : List Line} {declarations : List Declaration}
  {name : String}

/-- A run of declarations adds to the bytes of each name what it declares under the name. -/
theorem bytesOf?_eq (h : Declares locals labels last data lines declarations data')
    (hsound : data.Sound capacity) (name : String) :
    (data'.bytesOf? name).getD [] =
      (data.bytesOf? name).getD [] ++ ownBytes name last declarations := by
  induction h with
  | nil => rw [ownBytes, List.append_nil]
  | @cons last data data₁ _ _ _ declaration declarations label hdecode hlabel hadd hrest ih =>
    have hunder := under?_of_dataLabel hlabel
    have hbytes := DataSegment.bytesOf?_add hsound hadd name
    rw [DataSegment.content_length] at hbytes
    rw [ih (hsound.add hadd), hbytes, ownBytes, hunder]
    by_cases hname : name = label
    · subst hname
      rw [if_pos rfl, if_pos rfl, Option.getD_some, List.append_assoc]
    · have hne : ¬some label = some name := fun heq => hname (Option.some.inj heq).symm
      rw [if_neg hname, if_neg hne, List.nil_append]

/-- The chunk of a name that is declared for the first time lies behind what was declared
before. -/
theorem offset_ge (h : Declares locals labels last data lines declarations data') {mark : Nat}
    (hmark : mark ≤ data.used)
    (hold : ∀ chunk, data.chunk? name = some chunk → mark ≤ chunk.offset) :
    ∀ chunk, data'.chunk? name = some chunk → mark ≤ chunk.offset := by
  induction h with
  | nil => exact hold
  | cons hdecode hlabel hadd hrest ih =>
    obtain ⟨-, -, -, hused, ⟨new, hextend, hchunks⟩, -⟩ := DataSegment.add_eq_ok hadd
    refine ih (by omega) fun chunk hchunk => ?_
    rw [hchunks] at hchunk
    split at hchunk
    · next hname =>
      subst hname
      cases hchunk
      rcases DataSegment.extend_eq_ok hextend with ⟨-, rfl⟩ | ⟨old, hsome, -, rfl⟩
      · exact hmark
      · exact hold old hsome
    · exact hold chunk hchunk

/-- A name whose chunk ends before the fill mark is the label of no declaration. -/
theorem label_ne_of_lt_used (h : Declares locals labels last data lines declarations data')
    {chunk : Chunk} (hchunk : data.chunk? name = some chunk)
    (hlt : chunk.offset + chunk.size < data.used) :
    ∀ declaration ∈ declarations, ∀ own ∈ declaration.label, String.ofList own ≠ name := by
  induction h with
  | nil => exact fun _ hmem => by cases hmem
  | @cons _ data data₁ _ _ _ first declarations label hdecode hlabel hadd hrest ih =>
    obtain ⟨-, -, -, hused, -⟩ := DataSegment.add_eq_ok hadd
    have hne : name ≠ label := DataSegment.ne_of_add hadd hchunk (Nat.ne_of_lt hlt)
    have hstay : data₁.chunk? name = some chunk := by
      rw [(DataSegment.add_ends hadd).2 name hne, hchunk]
    intro declaration hmem own hown
    rcases List.mem_cons.1 hmem with rfl | hmem
    · rw [Declaration.label_eq hdecode] at hown
      rw [dataLabel_of_own hdecode hown] at hlabel
      rw [Except.ok.inj hlabel]
      exact hne.symm
    · exact ih hstay (by omega) declaration hmem own hown

/-- If a name that has a chunk is the label of a declaration, its chunk ends at the fill
mark, and the first declaration is the one with the label. -/
theorem head_of_chunk? (h : Declares locals labels none data lines declarations data')
    (hsound : data.Sound capacity) {declaration : Declaration} {label : List Char}
    (hmem : declaration ∈ declarations) (hlabel : label ∈ declaration.label) {old : Chunk}
    (hold : data.chunk? (String.ofList label) = some old) :
    old.offset + old.size = data.used ∧
      declarations.head?.bind Declaration.label = some label := by
  cases h with
  | nil => cases hmem
  | @cons _ _ data₁ _ line _ first declarations name hdecode hname hadd hrest =>
    obtain ⟨own, hown, rfl⟩ : ∃ own, first.label = some own ∧ String.ofList own = name := by
      rcases dataLabel_eq_ok hname with hown | hlast
      · exact hown
      · cases hlast
    obtain ⟨-, -, -, hused, -⟩ := DataSegment.add_eq_ok hadd
    by_cases hsame : own = label
    · subst hsame
      exact ⟨by_contra fun hend => DataSegment.ne_of_add hadd hold hend rfl, hown⟩
    · -- The first declaration moves the fill mark, and the chunk stays behind.
      exfalso
      have hne : String.ofList label ≠ String.ofList own :=
        fun heq => hsame (String.ofList_injective heq).symm
      have hstay : data₁.chunk? (String.ofList label) = some old := by
        rw [(DataSegment.add_ends hadd).2 _ hne, hold]
      have hle := hsound.chunk_le hold
      have hpos := Declaration.length_pos hdecode
      rcases List.mem_cons.1 hmem with rfl | hmem
      · exact hsame (Option.some.inj (hown.symm.trans hlabel))
      · exact hrest.label_ne_of_lt_used hstay (by omega) declaration hmem label hlabel rfl

end Declares

/-! ## Labels of a listing -/

/-- What the data labels of a listing name after its compile.

* A label names the bytes that it named before, and behind them those that the listing
  declares for it.
* If it named nothing before, these are the bytes that the listing declares, and they lie
  behind all earlier ones.
* If it named bytes before, they are the last ones that were declared, the label is that of
  the first declaration, and its address is that of the earlier bytes. -/
theorem compile_ownBytes {source : String} {capacity : Nat} {data data' : DataSegment}
    {procedure : Procedure} (hreach : data.Reachable capacity)
    (h : compile source data = .ok (procedure, data')) :
    ∃ body declarations, splitHeader? (Line.ofSource source) = some (procedure.name, body) ∧
      (dataLines body).map (fun line =>
          Declaration.decode ⟨procedure.locals, procedure.labels, data'⟩ line.text) =
        declarations.map .ok ∧
      ∀ declaration ∈ declarations, ∀ label ∈ declaration.label,
        let name := String.ofList label
        data'.bytesOf? name =
            some ((data.bytesOf? name).getD [] ++ ownBytes name none declarations) ∧
          (data.chunk? name = none →
            data'.bytesOf? name = some (ownBytes name none declarations) ∧
              ∃ chunk, data'.chunk? name = some chunk ∧ data.used ≤ chunk.offset) ∧
          ∀ old, data.chunk? name = some old →
            old.offset + old.size = data.used ∧
              declarations.head?.bind Declaration.label = some label ∧
              data'.address? name = data.address? name := by
  obtain ⟨body, hheader, -, -, hassemble⟩ := compileInto_eq_ok (compile_eq_ok h)
  obtain ⟨⟨declarations, hrun⟩, -⟩ := assemble_eq_ok hassemble
  refine ⟨body, declarations, hheader, hrun.decode_eq, fun declaration hmem label hlabel => ?_⟩
  intro name
  obtain ⟨chunk, hchunk⟩ := hrun.chunk?_of_label hmem hlabel
  have hbytes : data'.bytesOf? name =
      some ((data.bytesOf? name).getD [] ++ ownBytes name none declarations) := by
    rw [← hrun.bytesOf?_eq hreach.sound name, DataSegment.bytesOf?, hchunk, Option.map_some,
      Option.getD_some]
  refine ⟨hbytes, fun hnew => ⟨?_, chunk, hchunk, ?_⟩, fun old hold => ?_⟩
  · rw [hbytes, DataSegment.bytesOf?, hnew, Option.map_none, Option.getD_none, List.nil_append]
  · refine hrun.offset_ge (Nat.le_refl _) (fun old hold => ?_) chunk hchunk
    rw [hnew] at hold
    cases hold
  · obtain ⟨hend, hhead⟩ := hrun.head_of_chunk? hreach.sound hmem hlabel hold
    refine ⟨hend, hhead, ?_⟩
    have haddress : data.address? name = some (dataBase + UInt32.ofNat old.offset) := by
      rw [DataSegment.address?, hold, Option.map_some]
    rw [hrun.symbols_extend.address?_eq haddress, haddress]

/-- A listing with one data label. -/
def earlierListing : String :=
  "a proc near\n.data\nx db 1\n.code\nretn\na endp"

/-- A listing with the same label and another one. -/
def laterListing : String :=
  "b proc near\n.data\nx db 2\ny db 3\ndb 4\n.code\nmov eax, offset x\nretn\nb endp"

/-- The declarations of the later listing. -/
def laterDeclarations : List Declaration :=
  [⟨some ['x'], .byte, [2]⟩, ⟨some ['y'], .byte, [3]⟩, ⟨none, .byte, [4]⟩]

/-- The later listing compiles after the earlier one. -/
theorem compile_laterListing :
    ∃ data data' procedure body, data.Reachable 16 ∧
      compile laterListing data = .ok (procedure, data') ∧
      splitHeader? (Line.ofSource laterListing) = some (procedure.name, body) ∧
      (dataLines body).map (fun line =>
          Declaration.decode ⟨procedure.locals, procedure.labels, data'⟩ line.text) =
        laterDeclarations.map .ok ∧
      data.bytesOf? "x" = some [1] ∧ data.chunk? "y" = none ∧
      data'.bytesOf? "x" = some [1, 2] := by
  have hcheck : ((compile earlierListing (.new 16)).toOption.bind fun earlier =>
      (compile laterListing earlier.2).toOption.map fun later =>
        ((splitHeader? (Line.ofSource laterListing)).map fun header =>
          (dataLines header.2).map fun line =>
            Declaration.decode ⟨later.1.locals, later.1.labels, later.2⟩ line.text,
          [earlier.2.bytesOf? "x", earlier.2.bytesOf? "y", later.2.bytesOf? "x"])) =
      some (some (laterDeclarations.map .ok), [some [1], none, some [1, 2]]) := by decide +kernel
  obtain ⟨⟨procedure₀, data⟩, hearlier, hcheck⟩ := Option.bind_eq_some_iff.1 hcheck
  obtain ⟨⟨procedure, data'⟩, hlater, hcheck⟩ := Option.map_eq_some_iff.1 hcheck
  obtain ⟨hdeclarations, hbytes⟩ := Prod.mk.inj hcheck
  obtain ⟨hx, hbytes⟩ := List.cons.inj hbytes
  obtain ⟨hy, hbytes⟩ := List.cons.inj hbytes
  have hreach : data.Reachable 16 := compileInto_reachable .new
    (Or.inl ⟨procedure₀, compile_eq_ok (toOption_eq_some hearlier)⟩)
  obtain ⟨body, hheader, -⟩ := compileInto_eq_ok (compile_eq_ok (toOption_eq_some hlater))
  rw [hheader] at hdeclarations
  exact ⟨data, data', procedure, body, hreach, toOption_eq_some hlater, hheader,
    Option.some.inj hdeclarations, hx, Option.map_eq_none_iff.1 hy, (List.cons.inj hbytes).1⟩

/-- The first label of the later listing goes on with the bytes of the earlier one.  The
second label is new, and names the bytes that are declared for it. -/
theorem compile_ownBytes_laterListing :
    ∃ data data' procedure, data.Reachable 16 ∧
      compile laterListing data = .ok (procedure, data') ∧
      data'.bytesOf? "x" = some ([1] ++ [2]) ∧ data'.address? "x" = data.address? "x" ∧
      data'.bytesOf? "y" = some [3, 4] := by
  obtain ⟨data, data', procedure, body, hreach, h, hheader, hdeclarations, hx, hy, -⟩ :=
    compile_laterListing
  obtain ⟨body', declarations, hheader', hdecode, hown⟩ := compile_ownBytes hreach h
  obtain rfl : body = body' := by
    rw [hheader] at hheader'
    exact (Prod.mk.inj (Option.some.inj hheader')).2
  obtain rfl : declarations = laterDeclarations := by
    rw [hdeclarations] at hdecode
    exact (List.map_injective_iff.2 (fun _ _ => Except.ok.inj) hdecode).symm
  obtain ⟨hfirst, -, hold⟩ := hown ⟨some ['x'], .byte, [2]⟩ (by decide) ['x'] rfl
  obtain ⟨-, hsecond, -⟩ := hown ⟨some ['y'], .byte, [3]⟩ (by decide) ['y'] rfl
  obtain ⟨old, hchunk, -⟩ := Option.map_eq_some_iff.1 hx
  refine ⟨data, data', procedure, hreach, h, ?_, (hold old hchunk).2.2, (hsecond hy).1⟩
  rw [hx] at hfirst
  exact hfirst

/-- Not every label of a listing names just the bytes that the listing declares for it. -/
theorem not_compile_ownBytes :
    ¬∀ (source : String) (capacity : Nat) (data data' : DataSegment) (procedure : Procedure)
        (body : List Line) (declarations : List Declaration), data.Reachable capacity →
      compile source data = .ok (procedure, data') →
      splitHeader? (Line.ofSource source) = some (procedure.name, body) →
      (dataLines body).map (fun line =>
          Declaration.decode ⟨procedure.locals, procedure.labels, data'⟩ line.text) =
        declarations.map .ok →
      ∀ declaration ∈ declarations, ∀ label ∈ declaration.label,
        data'.bytesOf? (String.ofList label) =
          some (ownBytes (String.ofList label) none declarations) := by
  intro hall
  obtain ⟨data, data', procedure, body, hreach, h, hheader, hdeclarations, -, -, hx⟩ :=
    compile_laterListing
  have hown := hall laterListing 16 data data' procedure body laterDeclarations hreach h hheader
    hdeclarations ⟨some ['x'], .byte, [2]⟩ (by decide) ['x'] rfl
  rw [show String.ofList ['x'] = "x" from rfl, hx] at hown
  revert hown
  decide

end X86Listing
