import X86Listing.Proofs.Procedure.Assembly

/-!
# The two readings of a procedure agree

The first reading counts the instructions and gives each label its address.  The
second reading decodes the instructions while the data segment is still growing.
`compile_readings_agree` says that the outcome does not show any of this: the
instructions are those of the outline, decoded with all symbols known, and a label
has the address of the instruction behind its last line.
-/

namespace X86Listing

/-- A procedure is what the outline of a body says, with all symbols known.  `data`
is the data segment behind the procedure. -/
structure Procedure.FollowsOutline (procedure : Procedure) (body : List Line)
    (data : DataSegment) : Prop where
  locals_eq : procedure.locals = declaredLocals body
  /-- The instructions are the code lines, one by one and in order. -/
  decode_eq : (codeLines body).map
      (fun line => decode ⟨procedure.locals, procedure.labels, data⟩ line.text) =
    procedure.instructions.toList.map .ok
  /-- Every label has a line. -/
  labelAt : ∀ {name address}, procedure.labels.get? (String.ofList name) = some address →
    ∃ index, LabelAt (outline .code body) name index
  /-- Every label line has its name in the table, with the address behind the last
  line of that name. -/
  toNat_label : ∀ {name index}, LabelAt (outline .code body) name index →
    ∃ address, procedure.labels.get? (String.ofList name) = some address ∧
      ((codeLines body).length < 2 ^ 32 - codeBase.toNat →
        address.toNat = codeBase.toNat + index)

/-- A compile never fails for the number of instructions, and a procedure that was
compiled follows the outline of its body. -/
theorem compile_readings_agree (source : String) (data : DataSegment) :
    (∀ e, compile source data = .error e → e.code ≠ .countMismatch) ∧
    ∀ procedure data', compile source data = .ok (procedure, data') →
      ∃ body, splitHeader? (Line.ofSource source) = some (procedure.name, body) ∧
        procedure.FollowsOutline body data' := by
  constructor
  · intro e h
    unfold compile at h
    split at h
    · cases h
    · next hinto =>
      cases h
      exact (compileInto_eq_error hinto).2
  · intro procedure data' h
    obtain ⟨body, hheader, hlocals, hlabels, hassemble⟩ := compileInto_eq_ok (compile_eq_ok h)
    refine ⟨body, hheader, hlocals, (assemble_eq_ok hassemble).2, ?_, ?_⟩
    · intro name address hname
      rw [hlabels] at hname
      obtain ⟨index, hindex, -⟩ := resolve_survey_labels.1 hname
      exact ⟨index, hindex⟩
    · intro name index hindex
      refine ⟨codeAddress index, ?_, fun hfit => ?_⟩
      · rw [hlabels]
        exact resolve_survey_labels.2 ⟨index, hindex, rfl⟩
      · have hle := hindex.le_length
        rw [← codeLines] at hle
        exact toNat_codeAddress (by omega)

/-- A listing with data before and behind the code that names it, a label that is
used before its line, and a label with two lines. -/
def splitListing : String :=
  "f proc near\n.data\nt dd offset a\n.code\nb:\njmp ds:t[eax*4]\n" ++
    "a:\nb:\n.data\ndd 5\n.code\nretn\nf endp"

theorem compile_readings_agree_splitListing :
    ∃ procedure data', compile splitListing (.new 16) = .ok (procedure, data') ∧
      ∃ body, splitHeader? (Line.ofSource splitListing) = some (procedure.name, body) ∧
        procedure.FollowsOutline body data' := by
  have hok : (compile splitListing (.new 16)).toOption.isSome = true := by decide +kernel
  cases h : compile splitListing (.new 16) with
  | error e =>
    rw [h] at hok
    cases hok
  | ok result => exact ⟨result.1, result.2, rfl, (compile_readings_agree _ _).2 _ _ h⟩

end X86Listing
