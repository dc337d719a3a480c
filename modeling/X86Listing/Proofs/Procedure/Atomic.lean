import X86Listing.Proofs.Procedure.Assembly

/-!
# What a compile does to the data segment

The second reading appends the declarations of a procedure to the data segment one
by one, and any later line can still fail.  `compileInto_atomic` says that a compile
either leaves the segment as it was or appends the bytes of all its declarations,
and changes nothing else.
-/

namespace X86Listing

/-- A compile that fails leaves the data segment as it was.  A compile that succeeds
appends the bytes of the declarations of its body, in order.  It leaves the other
bytes and the place of every chunk, and only a chunk that ended at the fill mark can
have become longer.  Every label of a declaration names a chunk afterwards. -/
theorem compileInto_atomic {capacity : Nat} {data : DataSegment}
    (hreach : data.Reachable capacity) (source : String) :
    match compileInto source data with
    | .error _ data' => data' = data
    | .ok procedure data' =>
      ∃ body declarations, splitHeader? (Line.ofSource source) = some (procedure.name, body) ∧
        Declares procedure.locals procedure.labels none data (dataLines body) declarations
          data' ∧
        (dataLines body).map (fun line =>
            Declaration.decode ⟨procedure.locals, procedure.labels, data'⟩ line.text) =
          declarations.map .ok ∧
        data'.region.base = data.region.base ∧
        data'.capacity = data.capacity ∧
        data'.used = data.used + (declarations.flatMap Declaration.bytes).length ∧
        data'.region.bytes.slice data.used (data'.used - data.used) =
          declarations.flatMap Declaration.bytes ∧
        (∀ i, i < data.used ∨ data'.used ≤ i →
          data'.region.bytes.get i = data.region.bytes.get i) ∧
        (∀ name chunk, data.chunk? name = some chunk →
          ∃ size, data'.chunk? name = some ⟨chunk.offset, size⟩ ∧ chunk.size ≤ size ∧
            (chunk.size ≠ size → chunk.offset + chunk.size = data.used)) ∧
        ∀ declaration ∈ declarations, ∀ label, declaration.label = some label →
          ∃ chunk, data'.chunk? (String.ofList label) = some chunk := by
  cases h : compileInto source data with
  | error e data' => exact (compileInto_eq_error h).1
  | ok procedure data' =>
    obtain ⟨body, hheader, -, -, hassemble⟩ := compileInto_eq_ok h
    obtain ⟨declarations, hrun⟩ := (assemble_eq_ok hassemble).1
    have happends := hrun.appends hreach.sound
    have hused := happends.used_eq
    refine ⟨body, declarations, hheader, hrun, hrun.decode_eq, happends.base_eq,
      happends.capacity_eq, hused, ?_, ?_, fun name chunk => happends.chunk_eq, ?_⟩
    · rw [hused, Nat.add_sub_cancel_left]
      exact happends.slice_eq
    · intro i hi
      rcases hi with hlt | hle
      · exact happends.get_of_lt hlt
      · exact happends.get_of_le hle
    · intro declaration hmem label hlabel
      exact hrun.chunk?_of_label hmem hlabel

/-- A listing that adds to the table `t` and declares `u` before a line fails. -/
def lateErrorListing : String :=
  "f proc near\n.data\nt db 3\ndb 4\nu dw 5\n.code\npush u\npush v\nretn\nf endp"

theorem compileInto_atomic_lateErrorListing :
    ∃ data e, (DataSegment.new 16).add "t" [1, 2] 2 = .ok data ∧ data.Reachable 16 ∧
      compileInto lateErrorListing data = .error e data := by
  obtain ⟨data, hadd⟩ : ∃ data, (DataSegment.new 16).add "t" [1, 2] 2 = .ok data := ⟨_, rfl⟩
  have hreach : data.Reachable 16 := .add .new hadd
  have hatomic := compileInto_atomic hreach lateErrorListing
  have herror : ((DataSegment.new 16).add "t" [1, 2] 2).toOption.all (fun data =>
      (compile lateErrorListing data).toOption.isNone) = true := by decide +kernel
  rw [hadd] at herror
  cases h : compileInto lateErrorListing data with
  | error e data' =>
    rw [h] at hatomic
    exact ⟨data, e, hadd, hreach, by rw [h, hatomic]⟩
  | ok procedure data' =>
    have hok : compile lateErrorListing data = .ok (procedure, data') := by
      rw [compile, h]
    simp [Except.toOption, hok] at herror

end X86Listing
