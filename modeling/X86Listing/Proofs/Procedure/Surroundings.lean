import X86Listing.Proofs.Procedure.FirstError

/-!
# Text around a procedure

A listing can hold more than the procedure that is compiled.  `compileInto_surroundings` says
that it does not matter what stands behind the closing line, and that text without a header in
front of a listing only changes the number of the line that an error names.

* `Line.ofSource_append`: the lines of two texts, one behind the other, are those of the first
  text and those of the second one with higher numbers.
* `ClosesAt.read_append` and `ClosesAt.assemble_append`: neither reading looks behind the
  closing line.
* `read_moved` and `assemble_moved`: the first reading makes no use of the numbers of lines, and
  the second one only puts them in its errors.
-/

namespace X86Listing

open Text (pieces)

/-! ## Lines of two texts -/

theorem Text.pieces_append (sep : Char) (front back : List Char) :
    pieces sep (front ++ sep :: back) = pieces sep front ++ pieces sep back := by
  induction front with
  | nil => exact pieces_cons_self sep back
  | cons c front ih =>
    rw [List.cons_append, pieces, pieces, ih]
    split
    · rfl
    · cases h : pieces sep front with
      | nil => exact absurd h (pieces_ne_nil sep front)
      | cons piece more => rfl

theorem length_pieces_append (front back : String) :
    (pieces '\n' (front ++ "\n" ++ back).toList).length =
      (pieces '\n' front.toList).length + (pieces '\n' back.toList).length := by
  rw [← List.length_append, ← Text.pieces_append]
  simp

namespace Line

/-- A line `k` lines further down. -/
def moved (k : Nat) (line : Line) : Line :=
  { line with number := line.number + UInt32.ofNat k }

@[simp]
theorem moved_text (k : Nat) (line : Line) : (line.moved k).text = line.text := rfl

theorem ofRaw_append (index : Nat) (front back : List (List Char)) :
    ofRaw index (front ++ back) = ofRaw index front ++ ofRaw (index + front.length) back := by
  induction front generalizing index with
  | nil => rfl
  | cons raw front ih =>
    have hindex : index + (raw :: front).length = index + 1 + front.length := by
      rw [List.length_cons, Nat.add_right_comm, Nat.add_assoc]
    by_cases hraw : normalize raw = []
    · rw [List.cons_append, ofRaw_cons_of_nil hraw, ofRaw_cons_of_nil hraw, ih, hindex]
    · rw [List.cons_append, ofRaw_cons hraw, ofRaw_cons hraw, ih, hindex, List.cons_append]

theorem ofRaw_add (index k : Nat) (raws : List (List Char)) :
    ofRaw (index + k) raws = (ofRaw index raws).map (moved k) := by
  induction raws generalizing index with
  | nil => rfl
  | cons raw raws ih =>
    have hindex : index + k + 1 = index + 1 + k := Nat.add_right_comm ..
    by_cases hraw : normalize raw = []
    · rw [ofRaw_cons_of_nil hraw, ofRaw_cons_of_nil hraw, hindex, ih]
    · rw [ofRaw_cons hraw, ofRaw_cons hraw, hindex, ih, List.map_cons, UInt32.ofNat_add]
      rfl

theorem ofSource_append (front back : String) :
    ofSource (front ++ "\n" ++ back) =
      ofSource front ++ (ofSource back).map (moved (pieces '\n' front.toList).length) := by
  have htext : (front ++ "\n" ++ back).toList = front.toList ++ '\n' :: back.toList := by simp
  rw [ofSource, htext, Text.pieces_append, ofRaw_append, ofRaw_add]
  rfl

/-- The number of a line counts raw lines, from one. -/
theorem exists_index {source : String} {line : Line} (h : line ∈ ofSource source) :
    ∃ k < (pieces '\n' source.toList).length, line.number = UInt32.ofNat (k + 1) := by
  obtain ⟨k, raw, hraw, -, -, hnumber⟩ := mem_ofRaw.1 h
  obtain ⟨hk, -⟩ := List.getElem?_eq_some_iff.1 hraw
  exact ⟨k, hk, by rw [hnumber, Nat.zero_add]⟩

theorem toNat_number_le {source : String} {line : Line} (h : line ∈ ofSource source) :
    line.number.toNat ≤ (pieces '\n' source.toList).length := by
  obtain ⟨k, hk, hnumber⟩ := exists_index h
  rw [hnumber, UInt32.toNat_ofNat']
  exact (Nat.mod_le _ _).trans hk

theorem number_ne_zero {source : String} (hlines : (pieces '\n' source.toList).length < 2 ^ 32)
    {line : Line} (h : line ∈ ofSource source) : line.number ≠ 0 := by
  obtain ⟨k, hk, hnumber⟩ := exists_index h
  have hsize : UInt32.size = 2 ^ 32 := rfl
  rw [hnumber, Ne, ← UInt32.toNat_inj, UInt32.toNat_ofNat_of_lt' (by omega)]
  exact Nat.succ_ne_zero _

end Line

/-! ## Text behind the closing line -/

theorem splitHeader?_append {lines body : List Line} {name : String}
    (h : splitHeader? lines = some (name, body)) (more : List Line) :
    splitHeader? (lines ++ more) = some (name, body ++ more) := by
  induction lines with
  | nil => cases h
  | cons line rest ih =>
    rw [List.cons_append, splitHeader?]
    rw [splitHeader?] at h
    cases hname : headerName? line.text with
    | none =>
      rw [hname] at h
      exact ih h
    | some found =>
      rw [hname] at h
      cases h
      rfl

namespace ClosesAt

variable {current : Section} {body inside : List Line} {closing : Line}

theorem read_append (h : ClosesAt current body inside closing) (found : Survey)
    (more : List Line) : found.read current (body ++ more) = found.read current body := by
  induction h generalizing found with
  | here h => simp only [List.cons_append, Survey.read, h]
  | @further current line closing rest inside h _ ih =>
    -- The reading goes on in the section that the closing line is looked for in.
    rw [getD_section?] at ih
    rw [List.cons_append, Survey.read, Survey.read]
    cases hkind : LineKind.of current line.text with
    | closing => exact absurd hkind h
    | localName | switch | data | label | code =>
      rw [hkind] at ih
      exact ih _

theorem assemble_append (h : ClosesAt current body inside closing) (locals : NameMap UInt32)
    (labels : Labels) (last : Option String) (more : List Line) :
    assemble locals labels current last (body ++ more) =
      assemble locals labels current last body := by
  induction h generalizing last with
  | here h => simp only [List.cons_append, assemble, LineKind.switchFirst_eq_of, h]
  | @further current line closing rest inside h _ ih =>
    rw [getD_section?] at ih
    rw [List.cons_append, assemble, assemble, LineKind.switchFirst_eq_of]
    cases hkind : LineKind.of current line.text with
    | closing => exact absurd hkind h
    | localName | switch | data | label | code =>
      rw [hkind] at ih
      simp only [ih]

theorem compileBody_append {body : List Line} (h : ClosesAt .code body inside closing)
    (name : String) (more : List Line) :
    compileBody name (body ++ more) = compileBody name body := by
  funext data
  rw [compileBody_eq, compileBody_eq, survey, survey, h.read_append, h.assemble_append]

end ClosesAt

theorem compileInto_append_of_closed {source : String} {header closing : Line}
    {body inside : List Line} (hheader : OpensAt (Line.ofSource source) header body)
    (hclosing : ClosesAt .code body inside closing) (after : String) :
    compileInto (source ++ "\n" ++ after) = compileInto source := by
  obtain ⟨name, hname⟩ := splitHeader?_of_opensAt hheader
  rw [compileInto, compileInto, Line.ofSource_append, splitHeader?_append hname, hname]
  exact hclosing.compileBody_append name _

/-! ## Text in front of a listing -/

/-- An error of a line that stands `k` lines further down.  An error of the procedure as a whole
names no line, and stays as it is. -/
def CompileError.moved (k : Nat) (e : CompileError) : CompileError :=
  { e with line := if e.line = 0 then 0 else e.line + UInt32.ofNat k }

theorem Line.error_moved (k : Nat) {line : Line} (h : line.number ≠ 0) (code : ErrorCode)
    (message : String) : (line.moved k).error code message = (line.error code message).moved k := by
  have hline : (line.error code message).line ≠ 0 := h
  rw [CompileError.moved, if_neg hline]
  rfl

theorem splitHeader?_append_of_none {front : List Line}
    (h : ∀ line ∈ front, headerName? line.text = none) (lines : List Line) :
    splitHeader? (front ++ lines) = splitHeader? lines := by
  induction front with
  | nil => rfl
  | cons line front ih =>
    obtain ⟨hline, hfront⟩ := List.forall_mem_cons.1 h
    rw [List.cons_append, splitHeader?, hline]
    exact ih hfront

theorem splitHeader?_moved (k : Nat) (lines : List Line) :
    splitHeader? (lines.map (Line.moved k)) =
      (splitHeader? lines).map fun found => (found.1, found.2.map (Line.moved k)) := by
  induction lines with
  | nil => rfl
  | cons line rest ih =>
    rw [List.map_cons, splitHeader?, splitHeader?, ih, Line.moved_text]
    cases headerName? line.text <;> rfl

theorem read_moved (k : Nat) (found : Survey) (current : Section) (body : List Line) :
    found.read current (body.map (Line.moved k)) = found.read current body := by
  fun_induction Survey.read found current body with
  | case1 => rfl
  | case2 found current line rest name value hkind ih
  | case3 found current line rest target hkind ih
  | case4 found current line rest hkind ih
  | case5 found current line rest name hkind ih
  | case7 found current line rest hkind ih =>
    rw [List.map_cons, Survey.read, Line.moved_text, hkind, ← ih]
  | case6 found current line rest hkind =>
    rw [List.map_cons, Survey.read, Line.moved_text, hkind]

section Moved

variable {line : Line} (hnumber : line.number ≠ 0) (k : Nat) (locals : NameMap UInt32)
  (labels : Labels) (last : Option String)
include hnumber

theorem dataLabel_moved (declaration : Declaration) :
    dataLabel last (line.moved k) declaration =
      (dataLabel last line declaration).mapError (.moved k) := by
  unfold dataLabel
  split
  · rfl
  · rfl
  · exact congrArg Except.error (line.error_moved k hnumber ..)

theorem decodeError_moved :
    (line.moved k).decodeError = fun e => (line.decodeError e).moved k :=
  funext fun _ => line.error_moved k hnumber ..

theorem dataError_moved : (line.moved k).dataError = fun e => (line.dataError e).moved k :=
  funext fun _ => line.error_moved k hnumber ..

theorem appendDeclaration_moved (symbols : Symbols) :
    appendDeclaration symbols last (line.moved k) =
      (appendDeclaration symbols last line).mapError (.moved k) := by
  rw [appendDeclaration, appendDeclaration, decodeError_moved hnumber, dataError_moved hnumber]
  simp only [mapError_bind, mapError_mapError, dataLabel_moved hnumber]
  rfl

theorem declare_moved :
    declare locals labels last (line.moved k) =
      (declare locals labels last line).adaptExcept (.moved k) := by
  funext data
  rw [EStateM.adaptExcept, declare_eq, declare_eq, appendDeclaration_moved hnumber]
  cases appendDeclaration ⟨locals, labels, data⟩ last line <;> rfl

theorem decodeLine_moved :
    decodeLine locals labels (line.moved k) =
      (decodeLine locals labels line).adaptExcept (.moved k) := by
  funext data
  rw [EStateM.adaptExcept, decodeLine_eq, decodeLine_eq, decodeError_moved hnumber,
    Line.moved_text]
  cases decode ⟨locals, labels, data⟩ line.text <;> rfl

end Moved

theorem assemble_moved {body : List Line} (hnumbers : ∀ line ∈ body, line.number ≠ 0) (k : Nat)
    (locals : NameMap UInt32) (labels : Labels) (current : Section) (last : Option String) :
    assemble locals labels current last (body.map (Line.moved k)) =
      (assemble locals labels current last body).adaptExcept (.moved k) := by
  fun_induction assemble locals labels current last body with
  | case1 => rfl
  | case2 current last line rest name value hkind ih
  | case3 current last line rest target hkind ih
  | case5 current last line rest name hkind ih =>
    obtain ⟨-, hrest⟩ := List.forall_mem_cons.1 hnumbers
    rw [List.map_cons, assemble, Line.moved_text, hkind, ← ih hrest]
  | case4 current last line rest hkind ih =>
    obtain ⟨hline, hrest⟩ := List.forall_mem_cons.1 hnumbers
    rw [List.map_cons, assemble, Line.moved_text, hkind]
    simp only [adaptExcept_bind, ← declare_moved hline, ← ih _ hrest]
  | case6 current last line rest hkind =>
    rw [List.map_cons, assemble, Line.moved_text, hkind]
    rfl
  | case7 current last line rest hkind ih =>
    obtain ⟨hline, hrest⟩ := List.forall_mem_cons.1 hnumbers
    rw [List.map_cons, assemble, Line.moved_text, hkind]
    simp only [adaptExcept_bind, ← decodeLine_moved hline, ← ih hrest]
    rfl

theorem compileBody_moved {body : List Line} (hnumbers : ∀ line ∈ body, line.number ≠ 0)
    (k : Nat) (name : String) :
    compileBody name (body.map (Line.moved k)) =
      (compileBody name body).adaptExcept (.moved k) := by
  funext data
  have hsurvey : survey (body.map (Line.moved k)) = survey body := read_moved ..
  rw [EStateM.adaptExcept, compileBody_eq, compileBody_eq, hsurvey, assemble_moved hnumbers,
    EStateM.adaptExcept]
  -- The errors of the first reading name no line.
  split
  · rfl
  split
  · rfl
  cases assemble (survey body).locals (Labels.resolve (survey body).labels) .code none body data <;>
    rfl

/-- Text without a header in front of a listing moves the line of an error. -/
theorem compileInto_append_of_no_header {before source : String}
    (hbefore : ∀ raw ∈ pieces '\n' before.toList, headerName? (normalize raw) = none)
    (hlines : (pieces '\n' source.toList).length < 2 ^ 32) :
    compileInto (before ++ "\n" ++ source) =
      (compileInto source).adaptExcept (.moved (pieces '\n' before.toList).length) := by
  rw [compileInto, compileInto, Line.ofSource_append,
    splitHeader?_append_of_none (forall_ofSource_iff.2 hbefore), splitHeader?_moved]
  cases hsplit : splitHeader? (Line.ofSource source) with
  | none => rfl
  | some found =>
    obtain ⟨header, hopens⟩ := opensAt_of_splitHeader? hsplit
    refine compileBody_moved (fun line hline => Line.number_ne_zero hlines ?_) _ _
    exact hopens.suffix.subset (List.mem_cons_of_mem _ hline)

/-- An error names a line of the listing. -/
theorem line_le_of_compileInto {source : String} {data data' : DataSegment} {e : CompileError}
    (h : compileInto source data = .error e data') :
    e.line.toNat ≤ (pieces '\n' source.toList).length := by
  have hcompile : compile source data = .error e := by rw [compile, h]
  rcases (failure_of_compile hcompile).unlocated_or_stopsAt with
    ⟨code, -, message, rfl⟩ |
    ⟨header, body, accepted, refused, rest, closing, hheader, hclosing, hstops⟩
  · exact Nat.zero_le _
  · have hmem : refused ∈ Line.ofSource source :=
      hheader.suffix.subset (List.mem_cons_of_mem _ (hclosing.isPrefix.subset (by simp)))
    obtain ⟨code, -, message, rfl⟩ := hstops.refusedWith
    exact Line.toNat_number_le hmem

theorem CompileError.toNat_line_moved {k : Nat} {e : CompileError}
    (h : e.line.toNat + k < 2 ^ 32) :
    (e.moved k).line.toNat = if e.line = 0 then 0 else e.line.toNat + k := by
  unfold moved
  split
  · rfl
  · rw [UInt32.toNat_add, UInt32.toNat_ofNat', Nat.mod_eq_of_lt (show k < 2 ^ 32 by omega),
      Nat.mod_eq_of_lt h]

/-! ## Both sides -/

/-- The text around a procedure does not matter to a compile.  Nothing that stands behind the
closing line changes its answer or the data segment that it leaves.  Text without a header in
front of the listing changes the number of the line that an error names, by the number of the
lines of the text, and nothing else. -/
theorem compileInto_surroundings (source : String) (data : DataSegment) :
    (∀ header body inside closing, OpensAt (Line.ofSource source) header body →
      ClosesAt .code body inside closing →
        ∀ after, compileInto (source ++ "\n" ++ after) data = compileInto source data) ∧
    (∀ before, (pieces '\n' (before ++ "\n" ++ source).toList).length < 2 ^ 32 →
      (∀ raw ∈ pieces '\n' before.toList, headerName? (normalize raw) = none) →
        (∀ procedure data', compileInto source data = .ok procedure data' →
          compileInto (before ++ "\n" ++ source) data = .ok procedure data') ∧
        (∀ e data', compileInto source data = .error e data' →
          ∃ e', compileInto (before ++ "\n" ++ source) data = .error e' data' ∧
            e' = { e with line := e'.line } ∧
            e'.line.toNat = if e.line = 0 then 0
              else e.line.toNat + (pieces '\n' before.toList).length)) := by
  refine ⟨fun header body inside closing hheader hclosing after => ?_,
    fun before hlines hbefore => ?_⟩
  · rw [compileInto_append_of_closed hheader hclosing]
  · rw [length_pieces_append] at hlines
    have hmoved := congrFun (compileInto_append_of_no_header hbefore
      (show (pieces '\n' source.toList).length < 2 ^ 32 by omega)) data
    refine ⟨fun procedure data' hok => ?_, fun e data' herror => ?_⟩
    · rw [hmoved, EStateM.adaptExcept, hok]
    · have hle := line_le_of_compileInto herror
      refine ⟨e.moved (pieces '\n' before.toList).length, ?_, rfl,
        CompileError.toNat_line_moved (by omega)⟩
      rw [hmoved, EStateM.adaptExcept, herror]

/-- Notes and the end of another procedure. -/
def leadingText : String :=
  "; notes\n.data\nt db 1\nendp\n\nt: mov eax, 1"

/-- Another procedure, and data behind it. -/
def trailingText : String :=
  "g proc near\npush 1\nretn\ng endp\n.data\nt db 2\nf endp"

/-- The number of the line that a failed compile names. -/
def errorLine? : EStateM.Result CompileError DataSegment Procedure → Option UInt32
  | .error e _ => some e.line
  | .ok .. => none

theorem compileInto_surroundings_misspeltListing :
    compileInto (misspeltListing ++ "\n" ++ trailingText) (.new 16) =
      compileInto misspeltListing (.new 16) ∧
    ∃ e data', compileInto misspeltListing (.new 16) = .error e data' ∧ e.line = 10 ∧
      ∃ e', compileInto (leadingText ++ "\n" ++ misspeltListing) (.new 16) = .error e' data' ∧
        e' = { e with line := e'.line } ∧ e'.line.toNat = 16 := by
  obtain ⟨hbehind, hfront⟩ := compileInto_surroundings misspeltListing (.new 16)
  have hclosed : (splitHeader? (Line.ofSource misspeltListing)).any
      (fun found => (survey found.2).closed) = true := by decide +kernel
  obtain ⟨⟨name, body⟩, hsplit, hsurvey⟩ := (Option.any_eq_true _ _).1 hclosed
  obtain ⟨header, hopens⟩ := opensAt_of_splitHeader? hsplit
  obtain ⟨inside, closing, hcloses⟩ := survey_closed.1 hsurvey
  have hfails : errorLine? (compileInto misspeltListing (.new 16)) = some 10 := by decide +kernel
  refine ⟨hbehind header body inside closing hopens hcloses trailingText, ?_⟩
  cases h : compileInto misspeltListing (.new 16) with
  | ok procedure data' =>
    rw [h] at hfails
    cases hfails
  | error e data' =>
    rw [h] at hfails
    have hline : e.line = 10 := Option.some.inj hfails
    obtain ⟨e', herror, hsame, hmoved⟩ :=
      (hfront leadingText (by decide +kernel) (by decide +kernel)).2 e data' h
    rw [hline] at hmoved
    exact ⟨e, data', rfl, hline, e', herror, hsame, hmoved⟩

end X86Listing
