import Mathlib
import X86Listing.Proofs.Answer
import X86Listing.Proofs.DataSegment.Append
import X86Listing.Proofs.Memory.Region

/-!
# Histories of a data segment

A data segment is made empty, and from then on it is changed by declarations and stores
only, each of which succeeds or is refused.  `tiled_performAll` says what such a history
leaves behind, however long it is and in whatever order its operations come.

* `Tiled` is the invariant of the chunks: they lie side by side and fill the segment from
  its start to the fill mark.  `Tiled.add` is the step for a declaration, which makes one
  chunk and leaves the others.  A chunk of no bytes is in nobody's way, wherever it is.
* `Operation` is one operation, and `Operation.attempt_eq_some` says all that it can do.
  Later proofs do not open the operations again.
* `bytesOf?_add` is the step for the bytes of a name.  `Operation.contents` is what an
  operation declares under the name, and `bytesOf?_performAll` is the induction over a history.
  A store is no part of it as long as it stays above the fill mark (`Operation.Spares`): a
  declaration clears its bytes before it writes them.
-/

namespace X86Listing

/-! ## Sums over a map -/

namespace NameMap

variable {α : Type}

theorem lookup_eq_none_of_lt {name : String} {entries : List (String × α)}
    (h : ∀ entry ∈ entries, name < entry.1) : entries.lookup name = none := by
  induction entries with
  | nil => rfl
  | cons head rest ih =>
    obtain ⟨key, value⟩ := head
    have hlt : name < key := h (key, value) (List.mem_cons_self ..)
    have hne : name ≠ key := fun heq => String.lt_irrefl name (by rwa [← heq] at hlt)
    rw [lookup_cons_eq_ite, if_neg hne]
    exact ih fun entry hentry => h entry (List.mem_cons_of_mem _ hentry)

/-- An entry that takes the place of another one changes the sum by the difference. -/
theorem sum_insertEntry (f : α → Nat) (name : String) (value : α) {entries : List (String × α)}
    (h : entries.Pairwise fun a b => a.1 < b.1) :
    ((insertEntry name value entries).map fun entry => f entry.2).sum +
        ((entries.lookup name).map f).getD 0 =
      (entries.map fun entry => f entry.2).sum + f value := by
  induction entries with
  | nil => simp [insertEntry]
  | cons head rest ih =>
    obtain ⟨key, old⟩ := head
    obtain ⟨hhead, hrest⟩ := List.pairwise_cons.1 h
    unfold insertEntry
    split
    · next hlt =>
      have hnone : ((key, old) :: rest).lookup name = none := by
        refine lookup_eq_none_of_lt fun entry hentry => ?_
        rcases List.mem_cons.1 hentry with rfl | hentry
        · exact hlt
        · exact String.lt_trans hlt (hhead entry hentry)
      simp only [hnone, List.map_cons, List.sum_cons, Option.map_none, Option.getD_none]
      omega
    · split
      · next heq =>
        simp only [lookup_cons_eq_ite, if_pos heq, List.map_cons, List.sum_cons, Option.map_some,
          Option.getD_some]
        omega
      · next hne =>
        have hsum := ih hrest
        simp only [lookup_cons_eq_ite, if_neg hne, List.map_cons, List.sum_cons]
        omega

end NameMap

namespace SparseBytes

variable {a b : SparseBytes} {start : Nat}

/-- Bytes in a row, cut in two. -/
theorem slice_add (bytes : SparseBytes) (start m n : Nat) :
    bytes.slice start (m + n) = bytes.slice start m ++ bytes.slice (start + m) n := by
  rw [slice, slice, slice, ← List.map_append, List.range'_append_1]

theorem slice_congr {size : Nat}
    (h : ∀ i, start ≤ i → i < start + size → a.get i = b.get i) :
    a.slice start size = b.slice start size := by
  refine List.map_congr_left fun i hi => ?_
  obtain ⟨hle, hlt⟩ := List.mem_range'_1.1 hi
  exact h i hle hlt

end SparseBytes

/-- The byte at an offset belongs to a chunk. -/
def Chunk.Holds (chunk : Chunk) (i : Nat) : Prop :=
  chunk.offset ≤ i ∧ i < chunk.offset + chunk.size

namespace DataSegment

variable {capacity : Nat} {data data' : DataSegment} {name : String} {bytes : List UInt8}
  {size : Nat}

/-! ## Chunks side by side -/

/-- The chunks lie side by side, from the start of the segment to the fill mark. -/
structure Tiled (data : DataSegment) : Prop where
  /-- The fill mark is the sum of the sizes. -/
  sum_eq : (data.chunks.entries.map fun entry => entry.2.size).sum = data.used
  /-- The bytes below the fill mark are those of the chunks. -/
  holds_iff : ∀ i, i < data.used ↔ ∃ name chunk, data.chunk? name = some chunk ∧ chunk.Holds i
  /-- No byte belongs to two of them. -/
  eq_of_holds : ∀ {a b : String} {chunk other : Chunk} {i : Nat}, data.chunk? a = some chunk →
    data.chunk? b = some other → chunk.Holds i → other.Holds i → a = b

theorem tiled_new (capacity : Nat) : Tiled (new capacity) where
  sum_eq := rfl
  holds_iff i := by simp [new, chunk?]
  eq_of_holds h := by cases h

/-- A declaration makes one chunk and leaves the others. -/
theorem chunks_add (h : data.add name bytes size = .ok data') :
    ∃ chunk, data.extend name size = .ok chunk ∧ data'.chunks = data.chunks.insert name chunk := by
  obtain ⟨-, -, -, -, ⟨chunk, hextend, hchunks⟩, -⟩ := add_eq_ok h
  refine ⟨chunk, hextend, NameMap.ext_get? fun key => ?_⟩
  rw [NameMap.get?_insert]
  exact hchunks key

section Extend

variable {chunk : Chunk} (h : data.extend name size = .ok chunk)
include h

/-- The chunk of a declaration is larger than the old one by the size declared. -/
theorem size_extend : chunk.size = ((data.chunk? name).map Chunk.size).getD 0 + size := by
  rcases extend_eq_ok h with ⟨hnone, rfl⟩ | ⟨old, hold, -, rfl⟩
  · rw [hnone, Option.map_none, Option.getD_none, Nat.zero_add]
  · rw [hold, Option.map_some, Option.getD_some]

/-- It holds the bytes that the old one held, and those from the old fill mark to the new
one. -/
theorem holds_extend (i : Nat) :
    chunk.Holds i ↔ (∃ old, data.chunk? name = some old ∧ old.Holds i) ∨
      data.used ≤ i ∧ i < data.used + size := by
  unfold Chunk.Holds
  rcases extend_eq_ok h with ⟨hnone, rfl⟩ | ⟨old, hold, hend, rfl⟩
  · simp [hnone]
  · simp only [hold, Option.some.injEq, exists_eq_left']
    omega

end Extend

section Add

variable {chunk : Chunk} (hextend : data.extend name size = .ok chunk)
include hextend

/-- A chunk of another name shares no byte with the one that was declared. -/
theorem not_holds_of_ne (htiled : data.Tiled) (hsound : data.Sound capacity) {key : String}
    {other : Chunk} {i : Nat} (hkey : key ≠ name) (hother : data.chunk? key = some other)
    (hi : other.Holds i) : ¬chunk.Holds i := by
  intro hchunk
  rcases (holds_extend hextend i).1 hchunk with ⟨old, hold, hin⟩ | ⟨hle, -⟩
  · exact hkey (htiled.eq_of_holds hother hold hi hin)
  · have hbelow : i < data.used := Nat.lt_of_lt_of_le hi.2 (hsound.chunk_le hother)
    exact Nat.not_le.2 hbelow hle

variable (hget : ∀ key, data'.chunk? key = if key = name then some chunk else data.chunk? key)
include hget

/-- The bytes of the chunks after a declaration are those from before and the new ones. -/
theorem exists_holds_add (i : Nat) :
    (∃ key other, data'.chunk? key = some other ∧ other.Holds i) ↔
      (∃ key other, data.chunk? key = some other ∧ other.Holds i) ∨
        data.used ≤ i ∧ i < data.used + size := by
  have hholds := holds_extend hextend i
  constructor
  · rintro ⟨key, other, hother, hin⟩
    rw [hget] at hother
    split at hother
    · cases hother
      rcases hholds.1 hin with ⟨old, hold, hin⟩ | hnew
      · exact Or.inl ⟨name, old, hold, hin⟩
      · exact Or.inr hnew
    · exact Or.inl ⟨key, other, hother, hin⟩
  · rintro (⟨key, other, hother, hin⟩ | hnew)
    · by_cases hkey : key = name
      · subst hkey
        exact ⟨key, chunk, by rw [hget, if_pos rfl], hholds.2 (Or.inl ⟨other, hother, hin⟩)⟩
      · exact ⟨key, other, by rw [hget, if_neg hkey, hother], hin⟩
    · exact ⟨name, chunk, by rw [hget, if_pos rfl], hholds.2 (Or.inr hnew)⟩

end Add

/-- A declaration keeps the chunks side by side. -/
theorem Tiled.add (htiled : data.Tiled) (hsound : data.Sound capacity)
    (h : data.add name bytes size = .ok data') : data'.Tiled := by
  obtain ⟨-, -, -, hused, -, -⟩ := add_eq_ok h
  obtain ⟨chunk, hextend, hchunks⟩ := chunks_add h
  have hget (key : String) :
      data'.chunk? key = if key = name then some chunk else data.chunk? key := by
    rw [chunk?, hchunks, NameMap.get?_insert]
    rfl
  refine ⟨?_, fun i => ?_, ?_⟩
  · have hsum := NameMap.sum_insertEntry Chunk.size name chunk data.chunks.sorted
    have hsize := size_extend hextend
    have hold := htiled.sum_eq
    have hlookup : data.chunks.entries.lookup name = data.chunk? name := rfl
    rw [hlookup] at hsum
    rw [hchunks]
    show ((NameMap.insertEntry name chunk data.chunks.entries).map _).sum = _
    omega
  · rw [exists_holds_add hextend hget, ← htiled.holds_iff]
    omega
  · intro a b first second i ha hb hfirst hsecond
    rw [hget] at ha hb
    by_cases hna : a = name <;> by_cases hnb : b = name
    · rw [hna, hnb]
    · rw [if_pos hna] at ha
      rw [if_neg hnb] at hb
      cases ha
      exact absurd hfirst (not_holds_of_ne hextend htiled hsound hnb hb hsecond)
    · rw [if_neg hna] at ha
      rw [if_pos hnb] at hb
      cases hb
      exact absurd hsecond (not_holds_of_ne hextend htiled hsound hna ha hfirst)
    · rw [if_neg hna] at ha
      rw [if_neg hnb] at hb
      exact htiled.eq_of_holds ha hb hfirst hsecond

/-! ## The bytes of a name -/

theorem bytesOfChunk_congr {chunk : Chunk}
    (h : ∀ i, chunk.Holds i → data'.region.bytes.get i = data.region.bytes.get i) :
    data'.bytesOfChunk chunk = data.bytesOfChunk chunk :=
  SparseBytes.slice_congr fun i hle hlt => h i ⟨hle, hlt⟩

/-- Two segments with the same chunks and the same bytes below the fill mark hold the same
bytes under each name. -/
theorem bytesOf?_congr (hsound : data.Sound capacity) (hchunks : data'.chunks = data.chunks)
    (h : ∀ i < data.used, data'.region.bytes.get i = data.region.bytes.get i) (name : String) :
    data'.bytesOf? name = data.bytesOf? name := by
  have hchunk : data'.chunk? name = data.chunk? name := by rw [chunk?, hchunks, chunk?]
  rw [bytesOf?, bytesOf?, hchunk]
  cases hold : data.chunk? name with
  | none => rfl
  | some chunk =>
    have hle := hsound.chunk_le hold
    exact congrArg some (bytesOfChunk_congr fun i hi => h i (Nat.lt_of_lt_of_le hi.2 hle))

/-- A declaration adds its content to the bytes of its name, and to no other name.  What was
stored above the fill mark before is gone. -/
theorem bytesOf?_add (hsound : data.Sound capacity)
    (h : data.add name bytes size = .ok data') (key : String) :
    data'.bytesOf? key =
      if key = name then some ((data.bytesOf? name).getD [] ++ content bytes size)
      else data.bytesOf? key := by
  obtain ⟨-, -, -, -, ⟨chunk, hextend, hchunks⟩, -⟩ := add_eq_ok h
  have happends := appends_of_add h
  have hold {key : String} {old : Chunk} (hkey : data.chunk? key = some old) :
      data'.bytesOfChunk old = data.bytesOfChunk old :=
    bytesOfChunk_congr fun i hi =>
      happends.get_of_lt (Nat.lt_of_lt_of_le hi.2 (hsound.chunk_le hkey))
  have hnew : data'.region.bytes.slice data.used size = content bytes size := by
    have hslice := happends.slice_eq
    rwa [length_content] at hslice
  rw [bytesOf?, hchunks]
  by_cases hkey : key = name
  · rw [if_pos hkey, if_pos hkey, Option.map_some, bytesOf?, Option.some.injEq]
    rcases extend_eq_ok hextend with ⟨hnone, rfl⟩ | ⟨old, hsome, hend, rfl⟩
    · rw [hnone]
      exact hnew
    · rw [hsome, Option.map_some, Option.getD_some, ← hold hsome]
      show data'.region.bytes.slice old.offset (old.size + size) = _
      rw [SparseBytes.slice_add, hend, hnew]
      rfl
  · rw [if_neg hkey, if_neg hkey, bytesOf?]
    cases hother : data.chunk? key with
    | none => rfl
    | some old => exact congrArg some (hold hother)

/-- What is known of a name after more contents were declared under it. -/
def appendContents (known : Option (List UInt8)) (contents : List (List UInt8)) :
    Option (List UInt8) :=
  contents.foldl (fun known content => some (known.getD [] ++ content)) known

theorem appendContents_cons (known : Option (List UInt8)) (content : List UInt8)
    (contents : List (List UInt8)) :
    appendContents known (content :: contents) =
      appendContents (some (known.getD [] ++ content)) contents := rfl

theorem appendContents_append (known : Option (List UInt8)) (xs ys : List (List UInt8)) :
    appendContents known (xs ++ ys) = appendContents (appendContents known xs) ys :=
  List.foldl_append ..

theorem appendContents_eq (known : Option (List UInt8)) (contents : List (List UInt8)) :
    appendContents known contents =
      if contents = [] then known else some (known.getD [] ++ contents.flatten) := by
  induction contents generalizing known with
  | nil => rfl
  | cons content contents ih =>
    rw [appendContents_cons, ih, if_neg (List.cons_ne_nil content contents),
      List.flatten_cons, Option.getD_some, List.append_assoc]
    split
    · next hnil => rw [hnil, List.flatten_nil, List.append_nil]
    · rfl

/-! ## Operations -/

/-- An operation that can change a data segment. -/
inductive Operation where
  /-- Declare `size` bytes under a name, with the bytes given if there are any. -/
  | add (name : String) (bytes : Option (List UInt8)) (size : Nat)
  | storeByte (address : UInt32) (value : UInt8)
  | storeWord (address value : UInt32)

namespace Operation

/-- The segment after an operation, unless it is refused. -/
def attempt (data : DataSegment) : Operation → Option DataSegment
  | add name bytes size => (data.add name (bytes.getD []) size).toOption
  | storeByte address value => data.storeByte? address value
  | storeWord address value => data.storeWord? address value

/-- The segment after an operation, whether it succeeds or is refused. -/
def perform (data : DataSegment) (op : Operation) : DataSegment :=
  (op.attempt data).getD data

/-- The address that is stored to. -/
def address? : Operation → Option UInt32
  | add .. => none
  | storeByte address _ | storeWord address _ => some address

/-- What an operation declares under a name. -/
def contents (name : String) (data : DataSegment) (op : Operation) : List (List UInt8) :=
  match op with
  | add key bytes size =>
    if key = name ∧ (op.attempt data).isSome then [content (bytes.getD []) size] else []
  | _ => []

/-- Nothing is stored below the fill mark. -/
def Spares (data : DataSegment) (op : Operation) : Prop :=
  ∀ address ∈ op.address?, (op.attempt data).isSome →
    dataBase.toNat + data.used ≤ address.toNat

-- The one address is looked at, and not every word there is.
instance (data : DataSegment) (op : Operation) : Decidable (op.Spares data) :=
  Option.decidableForallMem op.address?

variable {op : Operation}

theorem perform_of_none (h : op.attempt data = none) : op.perform data = data := by
  rw [perform, h, Option.getD_none]

theorem perform_of_some (h : op.attempt data = some data') : op.perform data = data' := by
  rw [perform, h, Option.getD_some]

/-- An operation that succeeds is a declaration, or it writes bytes at an address inside the
segment. -/
theorem attempt_eq_some (h : op.attempt data = some data') :
    (∃ name bytes size, op = .add name bytes size ∧
        data.add name (bytes.getD []) size = .ok data') ∨
      ∃ address values, op.address? = some address ∧
        data.region.base.toNat ≤ address.toNat ∧
        data' = { data with region :=
          data.region.writeAt (address.toNat - data.region.base.toNat) values } := by
  cases op with
  | add name bytes size => exact Or.inl ⟨name, bytes, size, rfl, toOption_eq_some h⟩
  | storeByte address value =>
    right
    obtain ⟨region, hregion, rfl⟩ := Option.map_eq_some_iff.1 h
    rw [Region.storeByte?_eq] at hregion
    obtain ⟨hlow, -, rfl⟩ := Region.store?_eq_some_iff.1 hregion
    exact ⟨address, _, rfl, hlow, rfl⟩
  | storeWord address value =>
    right
    obtain ⟨region, hregion, rfl⟩ := Option.map_eq_some_iff.1 h
    rw [Region.storeWord?_eq] at hregion
    obtain ⟨hlow, -, rfl⟩ := Region.store?_eq_some_iff.1 hregion
    exact ⟨address, _, rfl, hlow, rfl⟩

/-- A declaration is refused if there is no room for it, or if the chunk of its name does not
end at the fill mark. -/
theorem attempt_add_eq_none_iff {bytes : Option (List UInt8)} :
    (Operation.add name bytes size).attempt data = none ↔
      data.free < size ∨
        ∃ chunk, data.chunk? name = some chunk ∧ chunk.offset + chunk.size ≠ data.used := by
  show (data.add name (bytes.getD []) size).toOption = none ↔ _
  unfold DataSegment.add extend
  by_cases hfree : data.free < size
  · simp [hfree, Except.toOption]
  · rw [if_neg hfree]
    cases hchunk : data.chunk? name with
    | none => simp [hfree, Except.toOption]
    | some chunk =>
      by_cases hend : chunk.offset + chunk.size = data.used
      · simp [hfree, hend, Except.toOption]
      · simp [hend, Except.toOption]

/-- A store that succeeds leaves the fill mark and the chunks. -/
theorem frame_of_address? {address : UInt32} (h : op.address? = some address) :
    (op.perform data).used = data.used ∧ (op.perform data).chunks = data.chunks := by
  cases hattempt : op.attempt data with
  | none =>
    rw [perform_of_none hattempt]
    exact ⟨rfl, rfl⟩
  | some data' =>
    rw [perform_of_some hattempt]
    rcases attempt_eq_some hattempt with ⟨name, bytes, size, rfl, -⟩ | ⟨_, _, -, -, rfl⟩
    · cases h
    · exact ⟨rfl, rfl⟩

theorem sound_perform (hsound : data.Sound capacity) : (op.perform data).Sound capacity := by
  cases hattempt : op.attempt data with
  | none =>
    rw [perform_of_none hattempt]
    exact hsound
  | some data' =>
    rw [perform_of_some hattempt]
    rcases attempt_eq_some hattempt with ⟨name, bytes, size, -, hadd⟩ | ⟨_, _, -, -, rfl⟩
    · exact hsound.add hadd
    · exact hsound.withBytes _

/-- An operation keeps the chunks side by side, also when it is refused. -/
theorem tiled_perform (hsound : data.Sound capacity) (htiled : data.Tiled) :
    (op.perform data).Tiled := by
  cases hattempt : op.attempt data with
  | none =>
    rw [perform_of_none hattempt]
    exact htiled
  | some data' =>
    rw [perform_of_some hattempt]
    rcases attempt_eq_some hattempt with ⟨name, bytes, size, -, hadd⟩ | ⟨_, _, -, -, rfl⟩
    · exact htiled.add hsound hadd
    · exact ⟨htiled.sum_eq, htiled.holds_iff, htiled.eq_of_holds⟩

/-- An operation moves no chunk and makes none shorter. -/
theorem chunk?_perform {chunk : Chunk} (h : data.chunk? name = some chunk) :
    ∃ size, (op.perform data).chunk? name = some ⟨chunk.offset, size⟩ ∧ chunk.size ≤ size := by
  cases hattempt : op.attempt data with
  | none =>
    rw [perform_of_none hattempt]
    exact ⟨chunk.size, h, Nat.le_refl _⟩
  | some data' =>
    rw [perform_of_some hattempt]
    rcases attempt_eq_some hattempt with ⟨_, _, _, -, hadd⟩ | ⟨_, _, -, -, rfl⟩
    · obtain ⟨size, hsome, hle, -⟩ := (appends_of_add hadd).chunk_eq h
      exact ⟨size, hsome, hle⟩
    · exact ⟨chunk.size, h, Nat.le_refl _⟩

/-- What a name stands for after an operation that stores nothing below the fill mark. -/
theorem bytesOf?_perform (hsound : data.Sound capacity) (hspares : op.Spares data)
    (name : String) :
    (op.perform data).bytesOf? name =
      appendContents (data.bytesOf? name) (op.contents name data) := by
  cases hattempt : op.attempt data with
  | none =>
    have hcontents : op.contents name data = [] := by
      cases op with
      | add => simp [contents, hattempt]
      | storeByte | storeWord => rfl
    rw [perform_of_none hattempt, hcontents]
    rfl
  | some data' =>
    have hsome : (op.attempt data).isSome := by rw [hattempt, Option.isSome_some]
    rw [perform_of_some hattempt]
    rcases attempt_eq_some hattempt with
      ⟨key, bytes, size, rfl, hadd⟩ | ⟨address, values, haddress, hlow, rfl⟩
    · rw [bytesOf?_add hsound hadd]
      by_cases hkey : key = name
      · subst hkey
        simp only [contents, hsome, and_self, if_true, appendContents_cons]
        rfl
      · have hne : ¬name = key := fun h => hkey h.symm
        simp only [contents, hkey, hne, false_and, if_false]
        rfl
    · have hcontents : op.contents name data = [] := by
        cases op with
        | add => cases haddress
        | storeByte | storeWord => rfl
      have habove := hspares address haddress hsome
      have hbase := congrArg UInt32.toNat hsound.base_eq
      rw [hcontents]
      refine bytesOf?_congr hsound (by rfl) (fun i hi => ?_) name
      exact Region.get_writeAt_of_outside (Or.inl (by omega))

end Operation

/-! ## Histories -/

/-- The segment after a list of operations. -/
def performAll (data : DataSegment) (ops : List Operation) : DataSegment :=
  ops.foldl Operation.perform data

/-- What a list of operations declares under a name. -/
def contents (name : String) (data : DataSegment) : List Operation → List (List UInt8)
  | [] => []
  | op :: ops => op.contents name data ++ contents name (op.perform data) ops

/-- Nothing is stored below the fill mark of its moment. -/
def Spares (data : DataSegment) : List Operation → Prop
  | [] => True
  | op :: ops => op.Spares data ∧ Spares (op.perform data) ops

instance Spares.decidable (data : DataSegment) :
    (ops : List Operation) → Decidable (Spares data ops)
  | [] => isTrue trivial
  | op :: ops =>
    have := Spares.decidable (op.perform data) ops
    inferInstanceAs (Decidable (op.Spares data ∧ Spares (op.perform data) ops))

theorem performAll_keeps (hsound : data.Sound capacity) (htiled : data.Tiled)
    (ops : List Operation) :
    (performAll data ops).Sound capacity ∧ (performAll data ops).Tiled := by
  induction ops generalizing data with
  | nil => exact ⟨hsound, htiled⟩
  | cons op ops ih => exact ih (op.sound_perform hsound) (op.tiled_perform hsound htiled)

theorem chunk?_performAll {chunk : Chunk} (h : data.chunk? name = some chunk)
    (ops : List Operation) :
    ∃ size, (performAll data ops).chunk? name = some ⟨chunk.offset, size⟩ ∧
      chunk.size ≤ size := by
  induction ops generalizing data chunk with
  | nil => exact ⟨chunk.size, h, Nat.le_refl _⟩
  | cons op ops ih =>
    obtain ⟨size, hsome, hle⟩ := op.chunk?_perform h
    obtain ⟨size', hsome', hle'⟩ := ih hsome
    exact ⟨size', hsome', Nat.le_trans hle hle'⟩

theorem bytesOf?_performAll (hsound : data.Sound capacity) {ops : List Operation}
    (hspares : Spares data ops) (name : String) :
    (performAll data ops).bytesOf? name =
      appendContents (data.bytesOf? name) (contents name data ops) := by
  induction ops generalizing data with
  | nil => rfl
  | cons op ops ih =>
    obtain ⟨hfirst, hrest⟩ := hspares
    rw [contents, appendContents_append, ← op.bytesOf?_perform hsound hfirst]
    exact ih (op.sound_perform hsound) hrest

/-- The history of a data segment.  Whatever the operations are, and whichever of them are
refused:

* the chunks lie side by side and fill the segment up to the fill mark, which is inside it;
* no later operation moves a chunk or makes it shorter;
* a declaration is refused if there is no room or the chunk of its name is not the last one,
  and what is refused changes nothing;
* a store leaves the fill mark and the chunks;
* if nothing was stored below the fill mark, the bytes of a name are those declared under
  it, one declaration after the other. -/
theorem tiled_performAll (capacity : Nat) (ops : List Operation) :
    let data := performAll (new capacity) ops
    (data.Tiled ∧ data.capacity = capacity ∧ data.used ≤ capacity) ∧
      (∀ more name chunk, data.chunk? name = some chunk →
        ∃ size, (performAll (new capacity) (ops ++ more)).chunk? name =
          some ⟨chunk.offset, size⟩ ∧ chunk.size ≤ size) ∧
      (∀ name bytes size, (Operation.add name bytes size).attempt data = none ↔
        data.free < size ∨
          ∃ chunk, data.chunk? name = some chunk ∧ chunk.offset + chunk.size ≠ data.used) ∧
      (∀ op : Operation, op.attempt data = none → op.perform data = data) ∧
      (∀ (op : Operation) address, op.address? = some address →
        (op.perform data).used = data.used ∧ (op.perform data).chunks = data.chunks) ∧
      (Spares (new capacity) ops → ∀ name, data.bytesOf? name =
        if contents name (new capacity) ops = [] then none
        else some (contents name (new capacity) ops).flatten) := by
  obtain ⟨hsound, htiled⟩ := performAll_keeps (sound_new capacity) (tiled_new capacity) ops
  refine ⟨⟨htiled, hsound.capacity_eq, hsound.used_le⟩, fun more name chunk hchunk => ?_,
    fun name bytes size => Operation.attempt_add_eq_none_iff,
    fun op => Operation.perform_of_none, fun op address => Operation.frame_of_address?,
    fun hspares name => ?_⟩
  · rw [performAll, List.foldl_append]
    exact chunk?_performAll hchunk more
  · have hbytes := bytesOf?_performAll (sound_new capacity) hspares name
    rw [appendContents_eq] at hbytes
    exact hbytes

/-- A history of eight bytes.  The stores go where `a` and `b` are declared later.  The second
declaration of the empty name, the last one of `a` and that of `c` are refused. -/
def mixedHistory : List Operation :=
  [.add "" none 0, .storeByte (dataBase + 1) 9, .add "a" (some [1]) 2, .add "" none 0,
    .add "a" (some [2, 3, 4]) 2, .storeWord (dataBase + 4) 0xffffffff, .add "b" none 3,
    .add "a" (some [5]) 1, .add "c" (some [6, 7]) 2]

theorem tiled_performAll_mixedHistory :
    Spares (new 8) mixedHistory ∧
      (performAll (new 8) mixedHistory).bytesOf? "" = some [] ∧
      (performAll (new 8) mixedHistory).bytesOf? "a" = some [1, 0, 2, 3] ∧
      (performAll (new 8) mixedHistory).bytesOf? "b" = some [0, 0, 0] ∧
      (performAll (new 8) mixedHistory).bytesOf? "c" = none := by
  have hspares : Spares (new 8) mixedHistory := by decide +kernel
  obtain ⟨-, -, -, -, -, hbytes⟩ := tiled_performAll 8 mixedHistory
  refine ⟨hspares, ?_, ?_, ?_, ?_⟩ <;> rw [hbytes hspares] <;> decide +kernel

end DataSegment

end X86Listing
