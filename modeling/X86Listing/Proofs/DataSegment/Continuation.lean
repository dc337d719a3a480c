import Mathlib
import X86Listing.Proofs.Answer
import X86Listing.Proofs.DataSegment.Append

/-!
# Which chunk can be continued

A declaration under a name that is known goes on with the chunk of that name, if that is the
last chunk.  Which chunk is the last one is not recorded: the segment asks whether the chunk
ends at the fill mark.  This module says what that comes to in terms of the declarations made
before.

* `appendAll` makes declarations one after the other, and `behind` gives those that came after
  the last one of a name.
* `used_appendAll` is the invariant: between the end of a chunk and the fill mark there are as
  many bytes as were declared behind that chunk.
* `InWords` says that no offset and no size is cut when it is kept in a word.  Here they are
  natural numbers, so the law is about a segment in words as long as fewer than `2 ^ 32` bytes
  are declared in all.  In a segment of less than `2 ^ 32` bytes it always is.
* `append_known` is the result.  A declaration of no bytes does not move the fill mark, so it
  does not close the chunk before it.
-/

namespace X86Listing.DataSegment

/-! ## Sequences of declarations -/

/-- A declaration: a name, a size, and bytes that are cut or filled up with zeros to that
size. -/
structure Addition where
  name : String
  bytes : Option (List UInt8)
  size : Nat

variable {capacity : Nat} {data data' : DataSegment} {history : List Addition}

/-- The segment after a declaration. -/
def append (data : DataSegment) (addition : Addition) : Except DataError DataSegment :=
  data.add addition.name (addition.bytes.getD []) addition.size

/-- The segment after a list of declarations, if all of them succeed. -/
def appendAll (data : DataSegment) (history : List Addition) : Except DataError DataSegment :=
  history.foldlM append data

/-- The number of bytes that a list of declarations declares. -/
def declared (history : List Addition) : Nat :=
  (history.map Addition.size).sum

/-- The declarations behind the last one of a name. -/
def behind (name : String) (history : List Addition) : List Addition :=
  history.rtakeWhile fun addition => addition.name ≠ name

/-- The name that was declared last. -/
def latest? (history : List Addition) : Option String :=
  history.getLast?.map Addition.name

theorem appendAll_concat (data : DataSegment) (history : List Addition) (last : Addition) :
    data.appendAll (history ++ [last]) =
      data.appendAll history >>= fun before => before.append last := by
  rw [appendAll, List.foldlM_append]
  simp only [List.foldlM_cons, List.foldlM_nil, bind_pure]
  rfl

theorem appendAll_concat_eq_ok {last : Addition}
    (h : data.appendAll (history ++ [last]) = .ok data') :
    ∃ before, data.appendAll history = .ok before ∧ before.append last = .ok data' := by
  rw [appendAll_concat] at h
  exact except_bind_eq_ok h

theorem declared_concat (history : List Addition) (last : Addition) :
    declared (history ++ [last]) = declared history + last.size := by
  simp [declared]

theorem declared_eq_zero_iff :
    declared history = 0 ↔ ∀ addition ∈ history, addition.size = 0 := by
  simp [declared, List.sum_eq_zero_iff]

theorem behind_concat (name : String) (history : List Addition) (last : Addition) :
    behind name (history ++ [last]) =
      if last.name = name then [] else behind name history ++ [last] := by
  rw [behind, List.rtakeWhile_concat]
  by_cases hname : last.name = name <;> simp [hname, behind]

theorem mem_of_mem_behind {name : String} {addition : Addition}
    (h : addition ∈ behind name history) : addition ∈ history :=
  (List.rtakeWhile_suffix ..).subset h

/-- Nothing is behind the declarations of a name exactly if the last one is of that name. -/
theorem behind_eq_nil_iff {name : String} :
    behind name history = [] ↔ history = [] ∨ latest? history = some name := by
  rcases List.eq_nil_or_concat history with rfl | ⟨before, last, rfl⟩
  · simp [behind]
  · by_cases hname : last.name = name <;> simp [behind_concat, latest?, hname]

/-- Declarations of at least one byte each are not all of no bytes, unless there are none. -/
theorem behind_eq_nil_of_pos {name : String} (hpos : ∀ addition ∈ history, 0 < addition.size)
    (hzero : ∀ addition ∈ behind name history, addition.size = 0) : behind name history = [] := by
  refine List.eq_nil_iff_forall_not_mem.2 fun addition hmem => ?_
  have hsize := hpos addition (mem_of_mem_behind hmem)
  have hnone := hzero addition hmem
  omega

/-! ## The fill mark -/

/-- The chunk of the name that was declared last ends at the fill mark. -/
theorem used_append {addition : Addition} {chunk : Chunk}
    (h : data.append addition = .ok data') (hchunk : data'.chunk? addition.name = some chunk) :
    data'.used = chunk.offset + chunk.size := by
  obtain ⟨-, -, -, hused, ⟨new, hextend, hchunks⟩, -⟩ := add_eq_ok h
  rw [hchunks, if_pos rfl] at hchunk
  cases hchunk
  rcases extend_eq_ok hextend with ⟨-, rfl⟩ | ⟨old, -, hend, rfl⟩
  · exact hused
  · simp only
    omega

/-- The bytes between a chunk and the fill mark were declared behind the last declaration of
its name. -/
theorem used_appendAll (h : (new capacity).appendAll history = .ok data) {name : String}
    {chunk : Chunk} (hchunk : data.chunk? name = some chunk) :
    data.used = chunk.offset + chunk.size + declared (behind name history) := by
  induction history using List.reverseRecOn generalizing data chunk with
  | nil =>
    cases h
    cases hchunk
  | append_singleton history last ih =>
    obtain ⟨before, hbefore, hlast⟩ := appendAll_concat_eq_ok h
    rw [behind_concat]
    by_cases hname : last.name = name
    · subst hname
      rw [if_pos rfl, used_append hlast hchunk]
      rfl
    · obtain ⟨-, -, -, hused, ⟨new, -, hchunks⟩, -⟩ := add_eq_ok hlast
      rw [hchunks, if_neg (Ne.symm hname)] at hchunk
      rw [if_neg hname, hused, ih hbefore hchunk, declared_concat, Nat.add_assoc]

/-- The fill mark is the number of bytes declared. -/
theorem used_eq_declared (h : (new capacity).appendAll history = .ok data) :
    data.used = declared history := by
  induction history using List.reverseRecOn generalizing data with
  | nil =>
    cases h
    rfl
  | append_singleton history last ih =>
    obtain ⟨before, hbefore, hlast⟩ := appendAll_concat_eq_ok h
    obtain ⟨-, -, -, hused, -⟩ := add_eq_ok hlast
    rw [hused, ih hbefore, declared_concat]

theorem reachable_appendAll (h : (new capacity).appendAll history = .ok data) :
    data.Reachable capacity := by
  induction history using List.reverseRecOn generalizing data with
  | nil =>
    cases h
    exact .new
  | append_singleton history last ih =>
    obtain ⟨before, hbefore, hlast⟩ := appendAll_concat_eq_ok h
    exact (ih hbefore).add hlast

/-! ## Words -/

/-- The fill mark, and the offset and the size of every chunk, fit in a word. -/
structure InWords (data : DataSegment) : Prop where
  used_lt : data.used < 2 ^ 32
  /-- The end of a chunk fits too, so both its offset and its size do. -/
  chunk_lt : ∀ {name : String} {chunk : Chunk}, data.chunk? name = some chunk →
    chunk.offset + chunk.size < 2 ^ 32

/-- No chunk reaches past the fill mark, so the fill mark is all that has to fit. -/
theorem Sound.inWords (hsound : data.Sound capacity) (hused : data.used < 2 ^ 32) :
    data.InWords :=
  ⟨hused, fun hchunk => Nat.lt_of_le_of_lt (hsound.chunk_le hchunk) hused⟩

/-- Declarations of fewer than `2 ^ 32` bytes in all leave nothing that does not fit. -/
theorem inWords_appendAll (h : (new capacity).appendAll history = .ok data)
    (hwords : declared history < 2 ^ 32) : data.InWords :=
  (reachable_appendAll h).sound.inWords (by rwa [used_eq_declared h])

/-! ## Continuations -/

/-- A declaration under a known name that fits succeeds if the chunk ends at the fill mark, and
is refused otherwise because the chunk is not the last one. -/
theorem append_of_chunk? {addition : Addition} {chunk : Chunk}
    (hchunk : data.chunk? addition.name = some chunk) (hfree : addition.size ≤ data.free) :
    chunk.offset + chunk.size = data.used ∧ (∃ data', data.append addition = .ok data') ∨
      chunk.offset + chunk.size ≠ data.used ∧
        data.append addition = .error (.notLastChunk addition.name) := by
  unfold append add extend
  rw [if_neg (Nat.not_lt.2 hfree), hchunk]
  by_cases hend : chunk.offset + chunk.size = data.used
  · left
    simp only [if_pos hend]
    exact ⟨hend, _, rfl⟩
  · right
    simp only [if_neg hend]
    exact ⟨hend, trivial⟩

/-- A declaration under a known name that fits succeeds exactly if no byte was declared behind
the last declaration of the name. -/
theorem append_ok_iff (h : (new capacity).appendAll history = .ok data) {further : Addition}
    {chunk : Chunk} (hchunk : data.chunk? further.name = some chunk)
    (hfree : further.size ≤ data.free) :
    (∃ data', data.append further = .ok data') ↔
      ∀ addition ∈ behind further.name history, addition.size = 0 := by
  have hused := used_appendAll h hchunk
  rw [← declared_eq_zero_iff]
  rcases append_of_chunk? hchunk hfree with ⟨hend, hsucceeds⟩ | ⟨hend, hrefused⟩
  · exact ⟨fun _ => by omega, fun _ => hsucceeds⟩
  · refine ⟨fun hsucceeds => ?_, fun hzero => absurd (by omega) hend⟩
    obtain ⟨data', hdata'⟩ := hsucceeds
    rw [hrefused] at hdata'
    cases hdata'

/-- What becomes of a declaration under a known name for which there is room, after any
declarations that succeeded, as long as fewer than `2 ^ 32` bytes are declared in all:

* every offset and every size fits in a word, before it and behind it;
* it succeeds exactly if no byte was declared behind the last declaration of its name, and it
  is refused otherwise because the chunk is not the last one;
* so it succeeds if the name is the one that was declared last, and if every declaration was of
  at least one byte, it does not succeed for any other name. -/
theorem append_known (h : (new capacity).appendAll history = .ok data) (further : Addition)
    (hknown : data.declares further.name = true) (hfree : further.size ≤ data.free)
    (hwords : declared (history ++ [further]) < 2 ^ 32) :
    (data.InWords ∧ ∀ data', data.append further = .ok data' → data'.InWords) ∧
      ((∃ data', data.append further = .ok data') ↔
        ∀ addition ∈ behind further.name history, addition.size = 0) ∧
      ((∃ data', data.append further = .ok data') ∨
        data.append further = .error (.notLastChunk further.name)) ∧
      (latest? history = some further.name → ∃ data', data.append further = .ok data') ∧
      ((∀ addition ∈ history, 0 < addition.size) →
        ((∃ data', data.append further = .ok data') ↔ latest? history = some further.name)) := by
  obtain ⟨chunk, hchunk⟩ := (NameMap.contains_iff ..).1 hknown
  have hbefore : data.InWords := by
    rw [declared_concat] at hwords
    exact inWords_appendAll h (by omega)
  have hbehind : ∀ data', data.append further = .ok data' → data'.InWords := by
    intro data' hdata'
    have hall : (new capacity).appendAll (history ++ [further]) = .ok data' := by
      rw [appendAll_concat, h, except_ok_bind, hdata']
    exact inWords_appendAll hall hwords
  have hiff := append_ok_iff h hchunk hfree
  have hlatest : latest? history = some further.name →
      ∃ data', data.append further = .ok data' := by
    intro hlast
    rw [hiff, behind_eq_nil_iff.2 (Or.inr hlast)]
    simp
  refine ⟨⟨hbefore, hbehind⟩, hiff, ?_, hlatest, fun hpos => ⟨fun hsucceeds => ?_, hlatest⟩⟩
  · rcases append_of_chunk? hchunk hfree with ⟨-, hsucceeds⟩ | ⟨-, hrefused⟩
    · exact Or.inl hsucceeds
    · exact Or.inr hrefused
  · have hnil := behind_eq_nil_of_pos hpos (hiff.1 hsucceeds)
    rcases behind_eq_nil_iff.1 hnil with rfl | hlast
    · cases h
      cases hchunk
    · exact hlast

/-- Two chunks that hold bytes. -/
def twoChunks : List Addition :=
  [⟨"a", some [1, 2], 2⟩, ⟨"b", none, 3⟩]

/-- Behind the bytes of `a` there are those of `b`, so `b` goes on and `a` does not. -/
theorem append_known_twoChunks :
    ∃ data, (new 8).appendAll twoChunks = .ok data ∧
      (data.declares "a" = true ∧ data.append ⟨"a", some [9], 1⟩ = .error (.notLastChunk "a")) ∧
      (data.declares "b" = true ∧ ∃ data', data.append ⟨"b", some [9], 1⟩ = .ok data') := by
  have hexists : ∃ data, (new 8).appendAll twoChunks = .ok data ∧ data.declares "a" = true ∧
      data.declares "b" = true ∧ data.free = 3 := ⟨_, rfl, by decide⟩
  obtain ⟨data, h, ha, hb, hfree⟩ := hexists
  have hroom : 1 ≤ data.free := by omega
  have hpos : ∀ addition ∈ twoChunks, 0 < addition.size := by decide
  obtain ⟨-, -, hrefused, -, hlatest⟩ :=
    append_known h ⟨"a", some [9], 1⟩ ha hroom (by decide)
  obtain ⟨-, -, -, hsucceeds, -⟩ := append_known h ⟨"b", some [9], 1⟩ hb hroom (by decide)
  refine ⟨data, h, ⟨ha, hrefused.resolve_left ?_⟩, hb, hsucceeds (by decide)⟩
  rw [hlatest hpos]
  decide

/-- A chunk of four bytes, and behind it one without bytes. -/
def emptyLast : List Addition :=
  [⟨"a", some [1, 2, 3, 4], 4⟩, ⟨"b", none, 0⟩]

/-- A chunk that is not the last one can be continued if the last one holds no bytes, also where
every number fits in a word. -/
theorem not_append_known_iff_latest :
    ¬∀ (capacity : Nat) (history : List Addition) (data : DataSegment) (further : Addition),
      (new capacity).appendAll history = .ok data → data.declares further.name = true →
        further.size ≤ data.free → declared (history ++ [further]) < 2 ^ 32 →
          ((∃ data', data.append further = .ok data') ↔
            latest? history = some further.name) := by
  intro h
  have hexists : ∃ data, (new 8).appendAll emptyLast = .ok data ∧ data.declares "a" = true ∧
      1 ≤ data.free ∧ (data.append ⟨"a", some [5], 1⟩).isOk = true := ⟨_, rfl, by decide⟩
  obtain ⟨data, happend, hknown, hfree, hok⟩ := hexists
  have hsucceeds : ∃ data', data.append ⟨"a", some [5], 1⟩ = .ok data' := by
    cases hresult : data.append ⟨"a", some [5], 1⟩ with
    | error e =>
      rw [hresult] at hok
      cases hok
    | ok data' => exact ⟨data', rfl⟩
  have hlatest := (h 8 emptyLast data ⟨"a", some [5], 1⟩ happend hknown hfree (by decide)).1
    hsucceeds
  exact absurd hlatest (by decide)

end X86Listing.DataSegment
