import X86Listing.Procedure.Compile
import X86Listing.Proofs.Answer
import X86Listing.Proofs.Procedure.Outline

/-!
# Where the second reading stops

The second reading decodes line by line, and it ends at the first line that it refuses.
`StopsAt` says this of a run: the lines before are accepted, and with one line more the run
ends in the error.  `assemble_eq_error` says that every run that fails stops so, at a line of
the outline.

`Line.RefusedWith` is what all errors of single lines have in common, whether the line is an
instruction, a declaration, or a declaration that the data segment has no room for: they name
the line, and their code is one of `lineCodes`.
-/

namespace X86Listing

/-! ## One more line -/

section OneMoreLine

variable {locals : NameMap UInt32} {labels : Labels} {current : Section} {last : Option String}
  {line : Line} {lines : List Line} {data : DataSegment}

theorem assemble_cons_data (hkind : LineKind.switchFirst current line.text = .data) :
    assemble locals labels current last (line :: lines) data =
      match declare locals labels last line data with
      | .error e data' => .error e data'
      | .ok label data' => assemble locals labels current (some label) lines data' := by
  rw [assemble, hkind]
  show EStateM.bind (declare locals labels last line) _ data = _
  rw [EStateM.bind]
  cases declare locals labels last line data <;> rfl

theorem assemble_cons_code (hkind : LineKind.switchFirst current line.text = .code) :
    assemble locals labels current last (line :: lines) data =
      match decodeLine locals labels line data with
      | .error e data' => .error e data'
      | .ok instruction data' =>
        match assemble locals labels current last lines data' with
        | .error e data' => .error e data'
        | .ok instructions data' => .ok (instruction :: instructions) data' := by
  rw [assemble, hkind]
  show EStateM.bind (decodeLine locals labels line) _ data = _
  rw [EStateM.bind]
  cases decodeLine locals labels line data with
  | error e data' => rfl
  | ok instruction data' =>
    show EStateM.bind (assemble locals labels current last lines) _ data' = _
    simp only [EStateM.bind]
    cases assemble locals labels current last lines data' <;> rfl

end OneMoreLine

/-! ## Errors of a line -/

/-- The codes that a single line can be refused with. -/
def lineCodes : List ErrorCode :=
  [.malformedOperand, .unknownMnemonic, .unknownRegister, .invalidData, .unresolvedSymbol,
    .duplicateData, .dataExhausted]

theorem DecodeError.code_mem_lineCodes (e : DecodeError) : e.code ∈ lineCodes := by
  cases e <;> simp [code, lineCodes]

theorem DataError.code_mem_lineCodes (e : DataError) : e.code ∈ lineCodes := by
  cases e <;> simp [code, lineCodes]

/-- The error names the line, and its code is one for a single line. -/
def Line.RefusedWith (line : Line) (e : CompileError) : Prop :=
  ∃ code ∈ lineCodes, ∃ message, e = line.error code message

theorem Line.RefusedWith.code_mem {line : Line} {e : CompileError} (h : line.RefusedWith e) :
    e.code ∈ lineCodes := by
  obtain ⟨code, hcode, message, rfl⟩ := h
  exact hcode

section Refusals

variable {locals : NameMap UInt32} {labels : Labels} {last : Option String} {line : Line}
  {data data' : DataSegment} {e : CompileError}

theorem dataLabel_eq_error {declaration : Declaration}
    (h : dataLabel last line declaration = .error e) : line.RefusedWith e := by
  unfold dataLabel at h
  split at h
  · cases h
  · cases h
  · cases h
    exact ⟨.invalidData, by decide, _, rfl⟩

/-- A declaration is refused because it cannot be decoded, because it continues nothing, or
by the data segment. -/
theorem appendDeclaration_eq_error {symbols : Symbols}
    (h : appendDeclaration symbols last line = .error e) : line.RefusedWith e := by
  rcases except_bind_eq_error h with hdecode | ⟨declaration, -, h⟩
  · obtain ⟨cause, -, rfl⟩ := mapError_eq_error hdecode
    exact ⟨_, cause.code_mem_lineCodes, _, rfl⟩
  rcases except_bind_eq_error h with hlabel | ⟨label, -, h⟩
  · exact dataLabel_eq_error hlabel
  rcases except_bind_eq_error h with hadd | ⟨segment, -, h⟩
  · obtain ⟨cause, -, rfl⟩ := mapError_eq_error hadd
    exact ⟨_, cause.code_mem_lineCodes, _, rfl⟩
  · cases h

theorem declare_eq_error (h : declare locals labels last line data = .error e data') :
    line.RefusedWith e := by
  rcases bind_eq_error h with h | ⟨found, data₁, hget, h⟩
  · cases h
  cases hget
  cases happend : appendDeclaration ⟨locals, labels, data⟩ last line with
  | ok result =>
    rw [happend] at h
    cases h
  | error cause =>
    rw [happend] at h
    cases h
    exact appendDeclaration_eq_error happend

theorem decodeLine_eq_error (h : decodeLine locals labels line data = .error e data') :
    line.RefusedWith e := by
  rcases bind_eq_error h with h | ⟨found, data₁, hget, h⟩
  · cases h
  cases hget
  cases hdecode : decode ⟨locals, labels, data⟩ line.text with
  | ok instruction =>
    rw [hdecode] at h
    cases h
  | error cause =>
    rw [hdecode] at h
    cases h
    exact ⟨_, cause.code_mem_lineCodes, _, rfl⟩

end Refusals

section StopsAt

variable {locals : NameMap UInt32} {labels : Labels} {current target : Section}
  {last next : Option String} {data data₁ data' : DataSegment} {line refused : Line}
  {accepted : List Line} {e : CompileError}

/-- The second reading accepts a list of lines and refuses the line behind them. -/
structure StopsAt (locals : NameMap UInt32) (labels : Labels) (current : Section)
    (last : Option String) (data : DataSegment) (accepted : List Line) (refused : Line)
    (e : CompileError) : Prop where
  accepts : ∃ instructions data',
    assemble locals labels current last accepted data = .ok instructions data'
  refuses : ∃ data',
    assemble locals labels current last (accepted ++ [refused]) data = .error e data'
  refusedWith : refused.RefusedWith e

/-- The first line is refused. -/
theorem StopsAt.first
    (hrefuses : ∃ data', assemble locals labels current last [line] data = .error e data')
    (hline : line.RefusedWith e) : StopsAt locals labels current last data [] line e :=
  ⟨⟨[], data, rfl⟩, hrefuses, hline⟩

/-- A line before that has no instruction is accepted. -/
theorem StopsAt.behind (h : StopsAt locals labels target next data₁ accepted refused e)
    (hstep : ∀ lines, assemble locals labels current last (line :: lines) data =
      assemble locals labels target next lines data₁) :
    StopsAt locals labels current last data (line :: accepted) refused e where
  accepts := by
    rw [hstep]
    exact h.accepts
  refuses := by
    rw [List.cons_append, hstep]
    exact h.refuses
  refusedWith := h.refusedWith

/-- An instruction before is accepted. -/
theorem StopsAt.behind_code {instruction : Instruction}
    (h : StopsAt locals labels current last data₁ accepted refused e)
    (hkind : LineKind.switchFirst current line.text = .code)
    (hline : decodeLine locals labels line data = .ok instruction data₁) :
    StopsAt locals labels current last data (line :: accepted) refused e where
  accepts := by
    obtain ⟨instructions, data', hok⟩ := h.accepts
    exact ⟨instruction :: instructions, data', by
      simp only [assemble_cons_code hkind, hline, hok]⟩
  refuses := by
    obtain ⟨data', herror⟩ := h.refuses
    exact ⟨data', by
      simp only [List.cons_append, assemble_cons_code hkind, hline, herror]⟩
  refusedWith := h.refusedWith

end StopsAt

/-- If the second reading fails, it stops at a line of the outline. -/
theorem assemble_eq_error {locals : NameMap UInt32} {labels : Labels} {current : Section}
    {last : Option String} {body : List Line} {data data' : DataSegment} {e : CompileError}
    (h : assemble locals labels current last body data = .error e data') :
    ∃ accepted refused rest,
      (outline current body).map Prod.snd = accepted ++ refused :: rest ∧
        StopsAt locals labels current last data accepted refused e := by
  fun_induction assemble locals labels current last body generalizing data with
  | case1 => cases h
  | case2 current last line rest name value hkind ih =>
    obtain ⟨accepted, refused, behind, hsplit, hstops⟩ := ih h
    rw [outline_cons (LineKind.switchFirst_eq_of .. ▸ hkind) (by simp) (by simp), List.map_cons,
      hsplit]
    exact ⟨line :: accepted, refused, behind, rfl,
      hstops.behind fun lines => by rw [assemble, hkind]⟩
  | case3 current last line rest target hkind ih =>
    obtain ⟨accepted, refused, behind, hsplit, hstops⟩ := ih h
    rw [outline_cons_switch (LineKind.switchFirst_eq_of .. ▸ hkind), List.map_cons, hsplit]
    exact ⟨line :: accepted, refused, behind, rfl,
      hstops.behind fun lines => by rw [assemble, hkind]⟩
  | case4 current last line rest hkind ih =>
    rw [outline_cons (LineKind.switchFirst_eq_of .. ▸ hkind) (by simp) (by simp), List.map_cons]
    rcases bind_eq_error h with hdeclare | ⟨label, data₁, hdeclare, h⟩
    · refine ⟨[], line, _, rfl, .first ⟨data', ?_⟩ (declare_eq_error hdeclare)⟩
      rw [assemble_cons_data hkind, hdeclare]
    · obtain ⟨accepted, refused, behind, hsplit, hstops⟩ := ih label h
      rw [hsplit]
      exact ⟨line :: accepted, refused, behind, rfl,
        hstops.behind fun lines => by rw [assemble_cons_data hkind, hdeclare]⟩
  | case5 current last line rest name hkind ih =>
    obtain ⟨accepted, refused, behind, hsplit, hstops⟩ := ih h
    rw [outline_cons (LineKind.switchFirst_eq_of .. ▸ hkind) (by simp) (by simp), List.map_cons,
      hsplit]
    exact ⟨line :: accepted, refused, behind, rfl,
      hstops.behind fun lines => by rw [assemble, hkind]⟩
  | case6 => cases h
  | case7 current last line rest hkind ih =>
    rw [outline_cons (LineKind.switchFirst_eq_of .. ▸ hkind) (by simp) (by simp), List.map_cons]
    rcases bind_eq_error h with hline | ⟨instruction, data₁, hline, h⟩
    · refine ⟨[], line, _, rfl, .first ⟨data', ?_⟩ (decodeLine_eq_error hline)⟩
      rw [assemble_cons_code hkind, hline]
    · rcases bind_eq_error h with h | ⟨more, data₂, -, h⟩
      · obtain ⟨accepted, refused, behind, hsplit, hstops⟩ := ih h
        rw [hsplit]
        exact ⟨line :: accepted, refused, behind, rfl, hstops.behind_code hkind hline⟩
      · cases h

end X86Listing
