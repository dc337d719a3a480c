import X86Listing.Proofs.Procedure.Assembly
import X86Listing.Proofs.Source.Numbers

/-!
# What a failed compile reports

A compile fails because the listing has no header, because the procedure is not closed, because
it has no instruction, or because the second reading refuses a line.  `Failure` lists these
four in the order in which they are looked for, and `failure_of_compile` says that there is no
other way to fail.

`compile_error_first` reads off what an error says: which of the four it is, and the number and
the text of the line at fault, which stands between the header and the closing line and is the
first one that is refused.

* `OpensAt` and `ClosesAt` find the header of a listing and the closing line of a body.
  `survey_closed` says that the first reading looks for this closing line.
* `number_between` places the line at fault, whatever blank lines and comments stand around.
-/

namespace X86Listing

open Text (pieces)

/-! ## The header and the closing line -/

/-- The first header among lines, and the lines behind it. -/
inductive OpensAt : List Line → Line → List Line → Prop where
  | here {line : Line} {body : List Line} (h : headerName? line.text ≠ none) :
      OpensAt (line :: body) line body
  | further {line header : Line} {rest body : List Line} (h : headerName? line.text = none)
      (hrest : OpensAt rest header body) : OpensAt (line :: rest) header body

/-- The first closing line of a body that starts in a section, and the lines before it. -/
inductive ClosesAt : Section → List Line → List Line → Line → Prop where
  | here {current : Section} {line : Line} {behind : List Line}
      (h : LineKind.of current line.text = .closing) :
      ClosesAt current (line :: behind) [] line
  | further {current : Section} {line closing : Line} {rest inside : List Line}
      (h : LineKind.of current line.text ≠ .closing)
      (hrest : ClosesAt ((section? line.text).getD current) rest inside closing) :
      ClosesAt current (line :: rest) (line :: inside) closing

theorem splitHeader?_of_opensAt {lines body : List Line} {header : Line}
    (h : OpensAt lines header body) : ∃ name, splitHeader? lines = some (name, body) := by
  induction h with
  | @here line body h =>
    obtain ⟨name, hname⟩ := Option.ne_none_iff_exists'.1 h
    exact ⟨String.ofList name, by rw [splitHeader?, hname]⟩
  | further h _ ih =>
    rw [splitHeader?, h]
    exact ih

theorem opensAt_of_splitHeader? {lines body : List Line} {name : String}
    (h : splitHeader? lines = some (name, body)) : ∃ header, OpensAt lines header body := by
  induction lines with
  | nil => cases h
  | cons line rest ih =>
    rw [splitHeader?] at h
    cases hname : headerName? line.text with
    | none =>
      rw [hname] at h
      obtain ⟨header, hopens⟩ := ih h
      exact ⟨header, .further hname hopens⟩
    | some found =>
      rw [hname] at h
      cases h
      exact ⟨line, .here (by simp [hname])⟩

theorem splitHeader?_eq_none_iff {lines : List Line} :
    splitHeader? lines = none ↔ ∀ line ∈ lines, headerName? line.text = none := by
  induction lines with
  | nil => simp [splitHeader?]
  | cons line rest ih =>
    rw [splitHeader?, List.forall_mem_cons, ← ih]
    cases headerName? line.text <;> simp

theorem OpensAt.suffix {lines body : List Line} {header : Line} (h : OpensAt lines header body) :
    header :: body <:+ lines := by
  induction h with
  | here => exact List.suffix_rfl
  | further _ _ ih => exact ih.trans (List.suffix_cons ..)

/-- A line is followed by lines of its own section, unless it is a switch. -/
theorem getD_section? (current : Section) (text : List Char) :
    (section? text).getD current =
      match LineKind.of current text with
      | .switch target => target
      | _ => current := by
  unfold LineKind.of LineKind.inSection
  cases hlocal : local? text with
  | some found => simp [section?_eq_none_of_local? hlocal]
  | none =>
    cases section? text with
    | some target => rfl
    | none =>
      -- Whatever the line is in its section, it is no switch.
      simp only [Option.getD_none]
      grind

theorem map_outline_cons {current : Section} {line : Line}
    (h : LineKind.of current line.text ≠ .closing) (rest : List Line) :
    (outline current (line :: rest)).map Prod.snd =
      line :: (outline ((section? line.text).getD current) rest).map Prod.snd := by
  rw [getD_section?, outline]
  split
  · next hclosing => exact absurd hclosing h
  · next target hswitch =>
    rw [hswitch]
    rfl
  · next kind hclosing hswitch =>
    split
    · next target heq => exact absurd heq (hswitch target)
    · rfl

/-- The lines before the closing line are those of the outline. -/
theorem ClosesAt.map_outline {current : Section} {body inside : List Line} {closing : Line}
    (h : ClosesAt current body inside closing) :
    (outline current body).map Prod.snd = inside := by
  induction h with
  | here h =>
    rw [outline_cons_closing h]
    rfl
  | further h _ ih => rw [map_outline_cons h, ih]

theorem ClosesAt.isPrefix {current : Section} {body inside : List Line} {closing : Line}
    (h : ClosesAt current body inside closing) : inside ++ [closing] <+: body := by
  induction h with
  | here => exact List.prefix_append [_] _
  | further _ _ ih => exact List.prefix_cons_inj _ |>.2 ih

theorem exists_closesAt_cons {current : Section} {line : Line} {rest : List Line}
    (h : LineKind.of current line.text ≠ .closing) :
    (∃ inside closing, ClosesAt current (line :: rest) inside closing) ↔
      ∃ inside closing, ClosesAt ((section? line.text).getD current) rest inside closing := by
  constructor
  · rintro ⟨inside, closing, hcloses⟩
    cases hcloses with
    | here hclosing => exact absurd hclosing h
    | further _ hrest => exact ⟨_, closing, hrest⟩
  · rintro ⟨inside, closing, hrest⟩
    exact ⟨line :: inside, closing, .further h hrest⟩

/-- The first reading finds out whether a body has a closing line. -/
theorem read_closed {found : Survey} (hopen : found.closed = false) {current : Section}
    {body : List Line} :
    (found.read current body).closed = true ↔
      ∃ inside closing, ClosesAt current body inside closing := by
  fun_induction Survey.read found current body with
  | case1 =>
    rw [hopen]
    refine iff_of_false (by decide) ?_
    rintro ⟨inside, closing, hcloses⟩
    cases hcloses
  | case6 found current line rest hkind =>
    exact ⟨fun _ => ⟨[], line, .here hkind⟩, fun _ => rfl⟩
  | case3 found current line rest target hkind ih =>
    rw [exists_closesAt_cons (by simp [hkind]), getD_section?, hkind]
    exact ih hopen
  | case2 found current line rest name value hkind ih
  | case4 found current line rest hkind ih
  | case5 found current line rest name hkind ih
  | case7 found current line rest hkind ih =>
    rw [exists_closesAt_cons (by simp [hkind]), getD_section?, hkind]
    exact ih hopen

theorem survey_closed {body : List Line} :
    (survey body).closed = true ↔ ∃ inside closing, ClosesAt .code body inside closing :=
  read_closed rfl

/-! ## Ways to fail -/

/-- How the compile of a listing fails, in the order of the checks. -/
inductive Failure (source : String) (data : DataSegment) : CompileError → Prop where
  | noHeader (message : String)
      (hheader : ∀ line ∈ Line.ofSource source, headerName? line.text = none) :
      Failure source data (.unlocated .missingHeader message)
  | notClosed {header : Line} {body : List Line} (message : String)
      (hheader : OpensAt (Line.ofSource source) header body)
      (hclosing : ¬∃ inside closing, ClosesAt .code body inside closing) :
      Failure source data (.unlocated .missingEnd message)
  | empty {header closing : Line} {body inside : List Line} (message : String)
      (hheader : OpensAt (Line.ofSource source) header body)
      (hclosing : ClosesAt .code body inside closing) (hcode : codeLines body = []) :
      Failure source data (.unlocated .emptyProcedure message)
  | refused {header closing refused : Line} {body accepted rest : List Line} {e : CompileError}
      (hheader : OpensAt (Line.ofSource source) header body)
      (hclosing : ClosesAt .code body (accepted ++ refused :: rest) closing)
      (hcode : codeLines body ≠ [])
      (hstops : StopsAt (survey body).locals (Labels.resolve (survey body).labels) .code none
        data accepted refused e) :
      Failure source data e

theorem failure_of_compileBody {source name : String} {header : Line} {body : List Line}
    {data data' : DataSegment} {e : CompileError}
    (hheader : OpensAt (Line.ofSource source) header body)
    (h : compileBody name body data = .error e data') : Failure source data e := by
  rw [compileBody_eq] at h
  split at h
  · next hclosed =>
    cases h
    refine .notClosed _ hheader ?_
    rw [← survey_closed]
    simpa using hclosed
  next hclosed =>
  obtain ⟨inside, closing, hclosing⟩ := survey_closed.1 (by simpa using hclosed)
  split at h
  · next hcount =>
    cases h
    rw [survey_count, List.length_eq_zero_iff] at hcount
    exact .empty _ hheader hclosing hcount
  next hcount =>
  rw [survey_count, List.length_eq_zero_iff] at hcount
  split at h
  · next hassemble =>
    cases h
    obtain ⟨accepted, refused, rest, hsplit, hstops⟩ := assemble_eq_error hassemble
    rw [hclosing.map_outline] at hsplit
    exact .refused hheader (hsplit ▸ hclosing) hcount hstops
  · cases h

/-- There are only four ways to fail. -/
theorem failure_of_compile {source : String} {data : DataSegment} {e : CompileError}
    (h : compile source data = .error e) : Failure source data e := by
  unfold compile at h
  split at h
  · cases h
  next hinto =>
  cases h
  unfold compileInto at hinto
  cases hsplit : splitHeader? (Line.ofSource source) with
  | none =>
    rw [hsplit] at hinto
    cases hinto
    exact .noHeader _ (splitHeader?_eq_none_iff.1 hsplit)
  | some found =>
    rw [hsplit] at hinto
    obtain ⟨header, hheader⟩ := opensAt_of_splitHeader? hsplit
    exact failure_of_compileBody hheader hinto

/-! ## What an error says -/

theorem OpensAt.exists_header {lines body : List Line} {header : Line}
    (h : OpensAt lines header body) : ¬∀ line ∈ lines, headerName? line.text = none := by
  obtain ⟨name, hname⟩ := splitHeader?_of_opensAt h
  rw [← splitHeader?_eq_none_iff, hname]
  simp

theorem OpensAt.body_eq {lines body body' : List Line} {header header' : Line}
    (h : OpensAt lines header body) (h' : OpensAt lines header' body') : body' = body := by
  obtain ⟨name, hname⟩ := splitHeader?_of_opensAt h
  obtain ⟨name', hname'⟩ := splitHeader?_of_opensAt h'
  rw [hname] at hname'
  cases hname'
  rfl

/-- The codes of errors that concern the procedure as a whole. -/
def procedureCodes : List ErrorCode :=
  [.missingHeader, .missingEnd, .emptyProcedure]

/-- The hundreds of the codes of a category. -/
def ErrorCategory.hundreds : ErrorCategory → Nat
  | syntactic => 1
  | symbolic => 2
  | structural => 3

theorem hundreds_category {code : ErrorCode} (h : code ∈ procedureCodes ++ lineCodes) :
    code.number.toNat / 100 = code.category.hundreds := by
  revert code
  decide

theorem not_mem_lineCodes {code : ErrorCode} (h : code ∈ procedureCodes) :
    code ∉ lineCodes := by
  revert code
  decide

namespace Failure

variable {source : String} {data : DataSegment} {e : CompileError}

/-- An error concerns the procedure as a whole, or a line between the header and the closing
line at which the second reading stops. -/
theorem unlocated_or_stopsAt (h : Failure source data e) :
    (∃ code ∈ procedureCodes, ∃ message, e = .unlocated code message) ∨
      ∃ header body accepted refused rest closing,
        OpensAt (Line.ofSource source) header body ∧
        ClosesAt .code body (accepted ++ refused :: rest) closing ∧
        StopsAt (survey body).locals (Labels.resolve (survey body).labels) .code none data
          accepted refused e := by
  cases h with
  | noHeader message => exact Or.inl ⟨.missingHeader, by decide, message, rfl⟩
  | notClosed message => exact Or.inl ⟨.missingEnd, by decide, message, rfl⟩
  | empty message => exact Or.inl ⟨.emptyProcedure, by decide, message, rfl⟩
  | refused hheader hclosing _ hstops =>
    exact Or.inr ⟨_, _, _, _, _, _, hheader, hclosing, hstops⟩

/-- The category of an error is that of its code. -/
theorem hundreds_eq (h : Failure source data e) :
    e.code.number.toNat / 100 = e.category.hundreds := by
  rcases h.unlocated_or_stopsAt with
    ⟨code, hcode, message, rfl⟩ | ⟨_, _, _, _, _, _, -, -, hstops⟩
  · exact hundreds_category (List.mem_append_left _ hcode)
  · obtain ⟨code, hcode, message, rfl⟩ := hstops.refusedWith
    exact hundreds_category (List.mem_append_right _ hcode)

theorem code_eq_missingHeader_iff (h : Failure source data e) :
    e.code = .missingHeader ↔ ∀ line ∈ Line.ofSource source, headerName? line.text = none := by
  cases h with
  | noHeader _ hheader => exact iff_of_true rfl hheader
  | notClosed _ hheader =>
    exact iff_of_false (show ErrorCode.missingEnd ≠ _ by decide) hheader.exists_header
  | empty _ hheader =>
    exact iff_of_false (show ErrorCode.emptyProcedure ≠ _ by decide) hheader.exists_header
  | refused hheader _ _ hstops =>
    exact iff_of_false (ne_of_mem_of_not_mem hstops.refusedWith.code_mem (by decide))
      hheader.exists_header

theorem code_eq_missingEnd_iff (h : Failure source data e) :
    e.code = .missingEnd ↔ ∃ header body, OpensAt (Line.ofSource source) header body ∧
      ¬∃ inside closing, ClosesAt .code body inside closing := by
  cases h with
  | noHeader _ hheader =>
    refine iff_of_false (show ErrorCode.missingHeader ≠ _ by decide) ?_
    rintro ⟨header, body, hopens, -⟩
    exact hopens.exists_header hheader
  | notClosed _ hheader hclosing => exact iff_of_true rfl ⟨_, _, hheader, hclosing⟩
  | empty _ hheader hclosing =>
    refine iff_of_false (show ErrorCode.emptyProcedure ≠ _ by decide) ?_
    rintro ⟨header, body, hopens, hnone⟩
    rw [hheader.body_eq hopens] at hnone
    exact hnone ⟨_, _, hclosing⟩
  | refused hheader hclosing _ hstops =>
    refine iff_of_false (ne_of_mem_of_not_mem hstops.refusedWith.code_mem (by decide)) ?_
    rintro ⟨header, body, hopens, hnone⟩
    rw [hheader.body_eq hopens] at hnone
    exact hnone ⟨_, _, hclosing⟩

theorem code_eq_emptyProcedure_iff (h : Failure source data e) :
    e.code = .emptyProcedure ↔ ∃ header body inside closing,
      OpensAt (Line.ofSource source) header body ∧ ClosesAt .code body inside closing ∧
        codeLines body = [] := by
  cases h with
  | noHeader _ hheader =>
    refine iff_of_false (show ErrorCode.missingHeader ≠ _ by decide) ?_
    rintro ⟨header, body, inside, closing, hopens, -, -⟩
    exact hopens.exists_header hheader
  | notClosed _ hheader hnone =>
    refine iff_of_false (show ErrorCode.missingEnd ≠ _ by decide) ?_
    rintro ⟨header, body, inside, closing, hopens, hclosing, -⟩
    rw [hheader.body_eq hopens] at hclosing
    exact hnone ⟨_, _, hclosing⟩
  | empty _ hheader hclosing hcode =>
    exact iff_of_true rfl ⟨_, _, _, _, hheader, hclosing, hcode⟩
  | refused hheader _ hcode hstops =>
    refine iff_of_false (ne_of_mem_of_not_mem hstops.refusedWith.code_mem (by decide)) ?_
    rintro ⟨header, body, inside, closing, hopens, -, hnone⟩
    rw [hheader.body_eq hopens] at hnone
    exact hcode hnone

end Failure

/-- No line is a header if no raw line is one. -/
theorem forall_ofSource_iff {source : String} :
    (∀ line ∈ Line.ofSource source, headerName? line.text = none) ↔
      ∀ raw ∈ pieces '\n' source.toList, headerName? (normalize raw) = none := by
  constructor
  · intro h raw hraw
    obtain ⟨k, hk⟩ := List.mem_iff_getElem?.1 hraw
    by_cases hne : normalize raw = []
    · rw [hne]
      rfl
    · exact h ⟨UInt32.ofNat (0 + k + 1), normalize raw⟩
        (Line.mem_ofRaw.2 ⟨k, raw, hk, rfl, hne, rfl⟩)
  · intro h line hline
    obtain ⟨k, raw, hraw, htext, -, -⟩ := Line.mem_ofRaw.1 hline
    rw [← htext]
    exact h raw (List.mem_of_getElem? hraw)

/-- A line behind the header and before the closing line has a number between theirs. -/
theorem number_between {source : String} {header refused closing : Line}
    {body accepted rest : List Line} (hlines : (pieces '\n' source.toList).length < 2 ^ 32)
    (hheader : OpensAt (Line.ofSource source) header body)
    (hclosing : ClosesAt .code body (accepted ++ refused :: rest) closing) :
    header.number < refused.number ∧ refused.number < closing.number := by
  have hordered : (header :: body).Pairwise fun a b => a.number < b.number :=
    (Line.pairwise_ofRaw (by rwa [Nat.zero_add])).sublist hheader.suffix.sublist
  obtain ⟨hbehind, hbody⟩ := List.pairwise_cons.1 hordered
  have hinside := hbody.sublist hclosing.isPrefix.sublist
  refine ⟨hbehind refused (hclosing.isPrefix.subset (by simp)), ?_⟩
  exact (List.pairwise_append.1 hinside).2.2 refused (by simp) closing (by simp)

/-- The number of a line finds the raw line that it was made from. -/
theorem Line.exists_raw {source : String} {line : Line}
    (hlines : (pieces '\n' source.toList).length < 2 ^ 32) (h : line ∈ Line.ofSource source) :
    ∃ raw, (pieces '\n' source.toList)[line.number.toNat - 1]? = some raw ∧
      normalize raw = line.text := by
  obtain ⟨k, raw, hraw, htext, -, hnumber⟩ := Line.mem_ofRaw.1 h
  obtain ⟨hk, -⟩ := List.getElem?_eq_some_iff.1 hraw
  have hsize : UInt32.size = 2 ^ 32 := rfl
  refine ⟨raw, ?_, htext⟩
  rwa [hnumber, UInt32.toNat_ofNat_of_lt' (by omega), Nat.zero_add, Nat.add_sub_cancel]

/-- A compile that fails reports the first reason there is: the listing has no header, the
procedure is not closed, it has no instruction, or a line between the header and the closing
line is refused.  The first three have line zero and no text.  The last one has the number and
the text of the line, and the second reading accepts all the lines of the procedure before. -/
theorem compile_error_first {source : String} {data : DataSegment} {e : CompileError}
    (hlines : (pieces '\n' source.toList).length < 2 ^ 32)
    (h : compile source data = .error e) :
    e.code.number.toNat / 100 = e.category.hundreds ∧
    (e.code = .missingHeader ↔
      ∀ raw ∈ pieces '\n' source.toList, headerName? (normalize raw) = none) ∧
    (e.code = .missingEnd ↔ ∃ header body, OpensAt (Line.ofSource source) header body ∧
      ¬∃ inside closing, ClosesAt .code body inside closing) ∧
    (e.code = .emptyProcedure ↔ ∃ header body inside closing,
      OpensAt (Line.ofSource source) header body ∧ ClosesAt .code body inside closing ∧
        codeLines body = []) ∧
    (e.code ∈ procedureCodes → e.line = 0 ∧ e.sourceLine = "") ∧
    (e.code ∉ procedureCodes → ∃ header body accepted refused rest closing,
      OpensAt (Line.ofSource source) header body ∧
      ClosesAt .code body (accepted ++ refused :: rest) closing ∧
      header.number < e.line ∧ e.line < closing.number ∧
      (∃ raw, (pieces '\n' source.toList)[e.line.toNat - 1]? = some raw ∧
        String.ofList (normalize raw) = e.sourceLine) ∧
      e.line = refused.number ∧ e.sourceLine = String.ofList refused.text ∧
      StopsAt (survey body).locals (Labels.resolve (survey body).labels) .code none data
        accepted refused e) := by
  have hfailure := failure_of_compile h
  refine ⟨hfailure.hundreds_eq, ?_, hfailure.code_eq_missingEnd_iff,
    hfailure.code_eq_emptyProcedure_iff, ?_, ?_⟩
  · rw [hfailure.code_eq_missingHeader_iff, forall_ofSource_iff]
  · intro hcode
    rcases hfailure.unlocated_or_stopsAt with
      ⟨code, -, message, rfl⟩ | ⟨_, _, _, _, _, _, -, -, hstops⟩
    · exact ⟨rfl, rfl⟩
    · exact absurd hstops.refusedWith.code_mem (not_mem_lineCodes hcode)
  · intro hcode
    rcases hfailure.unlocated_or_stopsAt with ⟨code, hmem, message, rfl⟩ |
      ⟨header, body, accepted, refused, rest, closing, hheader, hclosing, hstops⟩
    · exact absurd hmem hcode
    · obtain ⟨hafter, hbefore⟩ := number_between hlines hheader hclosing
      have hmem : refused ∈ Line.ofSource source :=
        hheader.suffix.subset (List.mem_cons_of_mem _ (hclosing.isPrefix.subset (by simp)))
      obtain ⟨raw, hraw, htext⟩ := Line.exists_raw hlines hmem
      obtain ⟨code, -, message, rfl⟩ := hstops.refusedWith
      exact ⟨header, body, accepted, refused, rest, closing, hheader, hclosing, hafter, hbefore,
        ⟨raw, hraw, congrArg String.ofList htext⟩, rfl, rfl, hstops⟩

/-- A listing with blank lines, a comment, a local and data in front of two misspelt lines. -/
def misspeltListing : String :=
  "; one\n\nf proc near\narg = dword ptr 8\n.data\nt db 1\n\n.code ; two\npush t\n" ++
    "frob eax, 1\npusx t\nretn\nf endp"

theorem compile_error_first_misspeltListing :
    (pieces '\n' misspeltListing.toList).length < 2 ^ 32 ∧
    ∃ e, compile misspeltListing (.new 16) = .error e ∧
      (e.code = .unknownMnemonic ∧ e.line = 10 ∧ e.sourceLine = "frob eax, 1") ∧
      ∃ header body accepted refused rest closing,
        OpensAt (Line.ofSource misspeltListing) header body ∧
        ClosesAt .code body (accepted ++ refused :: rest) closing ∧
        header.number < 10 ∧ 10 < closing.number ∧ refused.number = 10 ∧
        StopsAt (survey body).locals (Labels.resolve (survey body).labels) .code none (.new 16)
          accepted refused e := by
  have hlines : (pieces '\n' misspeltListing.toList).length < 2 ^ 32 := by decide +kernel
  have hfails : (match compile misspeltListing (.new 16) with
      | .error e =>
        decide (e.code = .unknownMnemonic ∧ e.line = 10 ∧ e.sourceLine = "frob eax, 1")
      | .ok _ => false) = true := by decide +kernel
  cases h : compile misspeltListing (.new 16) with
  | ok result => simp [h] at hfails
  | error e =>
    rw [h] at hfails
    obtain ⟨hcode, hline, htext⟩ := of_decide_eq_true hfails
    obtain ⟨-, -, -, -, -, hlocated⟩ := compile_error_first hlines h
    obtain ⟨header, body, accepted, refused, rest, closing, hheader, hclosing, hafter, hbefore, -,
      hnumber, -, hstops⟩ := hlocated (by rw [hcode]; decide)
    rw [hline] at hafter hbefore hnumber
    exact ⟨hlines, e, rfl, ⟨hcode, hline, htext⟩, header, body, accepted, refused, rest, closing,
      hheader, hclosing, hafter, hbefore, hnumber.symm, hstops⟩

end X86Listing
