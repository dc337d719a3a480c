import X86Listing.Memory.DataSegment

/-!
# A data segment is appended to

A declaration writes at the fill mark and nowhere else.  This module says what
that means for the whole segment, for one declaration and for any number of them.

There are three groups of facts.

* The histories of a segment.  `Reachable` holds of the segments that
  declarations and stores lead to.  `Sound` is the invariant of all of them: no
  chunk reaches past the fill mark, and the fill mark is inside the segment.
* One declaration.  `add_eq_ok` says all that a declaration which succeeds has
  done, and later proofs do not open `add` again.
* Any number of declarations.  `Appends old bytes new` says that `new` is `old`
  with `bytes` behind its fill mark.  It holds of one declaration
  (`appends_of_add`) and is closed under composition (`Appends.trans`).
-/

namespace X86Listing.DataSegment

/-! ## Histories -/

/-- The data segments of a capacity that declarations and stores lead to. -/
inductive Reachable (capacity : Nat) : DataSegment → Prop where
  | new : Reachable capacity (.new capacity)
  | add {data data' : DataSegment} {name : String} {bytes : List UInt8} {size : Nat}
      (before : Reachable capacity data) (h : data.add name bytes size = .ok data') :
      Reachable capacity data'
  | storeByte {data data' : DataSegment} {address : UInt32} {value : UInt8}
      (before : Reachable capacity data) (h : data.storeByte? address value = some data') :
      Reachable capacity data'
  | storeWord {data data' : DataSegment} {address value : UInt32}
      (before : Reachable capacity data) (h : data.storeWord? address value = some data') :
      Reachable capacity data'

/-- The invariant of the data segments of a capacity. -/
structure Sound (capacity : Nat) (data : DataSegment) : Prop where
  base_eq : data.region.base = dataBase
  capacity_eq : data.capacity = capacity
  /-- The fill mark is inside the segment. -/
  used_le : data.used ≤ capacity
  /-- No chunk reaches past the fill mark. -/
  chunk_le : ∀ {name : String} {chunk : Chunk}, data.chunk? name = some chunk →
    chunk.offset + chunk.size ≤ data.used

/-! ## One declaration -/

/-- The bytes that a declaration of `size` bytes writes. -/
def content (bytes : List UInt8) (size : Nat) : List UInt8 :=
  bytes.take size ++ List.replicate (size - bytes.length) 0

@[simp]
theorem length_content (bytes : List UInt8) (size : Nat) :
    (content bytes size).length = size := by
  rw [content, List.length_append, List.length_take, List.length_replicate]
  omega

@[simp]
theorem content_length (bytes : List UInt8) : content bytes bytes.length = bytes := by
  simp [content]

/-- The chunk after a declaration is new or the old one made longer, and it ends
at the new fill mark. -/
theorem extend_eq_ok {data : DataSegment} {name : String} {size : Nat} {chunk : Chunk}
    (h : data.extend name size = .ok chunk) :
    data.chunk? name = none ∧ chunk = ⟨data.used, size⟩ ∨
      ∃ old, data.chunk? name = some old ∧ old.offset + old.size = data.used ∧
        chunk = ⟨old.offset, old.size + size⟩ := by
  unfold extend at h
  split at h
  · next hnone => exact Or.inl ⟨hnone, (Except.ok.inj h).symm⟩
  · next old hold =>
    split at h
    · next hend => exact Or.inr ⟨old, hold, hend, (Except.ok.inj h).symm⟩
    · simp at h

/-- What a declaration that succeeds has done. -/
theorem add_eq_ok {data data' : DataSegment} {name : String} {bytes : List UInt8} {size : Nat}
    (h : data.add name bytes size = .ok data') :
    size ≤ data.free ∧ data'.region.base = data.region.base ∧
      data'.capacity = data.capacity ∧ data'.used = data.used + size ∧
      (∃ chunk, data.extend name size = .ok chunk ∧
        ∀ key, data'.chunk? key = if key = name then some chunk else data.chunk? key) ∧
      ∀ i, data'.region.bytes.get i =
        if data.used ≤ i then (content bytes size)[i - data.used]?.getD (data.region.bytes.get i)
        else data.region.bytes.get i := by
  unfold add at h
  split at h
  · simp at h
  · next hfree =>
    split at h
    · simp at h
    · next chunk hchunk =>
      obtain rfl := Except.ok.inj h
      refine ⟨Nat.not_lt.1 hfree, rfl, rfl, rfl,
        ⟨chunk, hchunk, fun key => NameMap.get?_insert ..⟩, fun i => ?_⟩
      simp only [SparseBytes.get_write, SparseBytes.get_clear, content, List.getElem?_append,
        List.getElem?_take, List.getElem?_replicate, List.length_take]
      grind

/-! ## Segments with bytes appended -/

/-- The second segment is the first one with bytes appended at its fill mark. -/
structure Appends (old : DataSegment) (bytes : List UInt8) (new : DataSegment) : Prop where
  base_eq : new.region.base = old.region.base
  capacity_eq : new.capacity = old.capacity
  used_eq : new.used = old.used + bytes.length
  /-- The other bytes stay, below the old fill mark and above the new one. -/
  get_eq : ∀ i, new.region.bytes.get i =
    if old.used ≤ i then bytes[i - old.used]?.getD (old.region.bytes.get i)
    else old.region.bytes.get i
  /-- Every chunk stays where it is.  It gets longer only if it ended at the old
  fill mark, and it never gets shorter. -/
  chunk_eq : ∀ {name : String} {chunk : Chunk}, old.chunk? name = some chunk →
    ∃ size, new.chunk? name = some ⟨chunk.offset, size⟩ ∧ chunk.size ≤ size ∧
      (chunk.size ≠ size → chunk.offset + chunk.size = old.used)

theorem Appends.refl (data : DataSegment) : Appends data [] data where
  base_eq := rfl
  capacity_eq := rfl
  used_eq := rfl
  get_eq i := by simp
  chunk_eq {_ chunk} h := ⟨chunk.size, h, Nat.le_refl _, fun hne => absurd rfl hne⟩

/-- A declaration appends its content. -/
theorem appends_of_add {data data' : DataSegment} {name : String} {bytes : List UInt8}
    {size : Nat} (h : data.add name bytes size = .ok data') :
    Appends data (content bytes size) data' := by
  obtain ⟨-, hbase, hcapacity, hused, ⟨chunk, hextend, hchunks⟩, hget⟩ := add_eq_ok h
  refine ⟨hbase, hcapacity, by rw [hused, length_content], hget, fun {key old} hold => ?_⟩
  rw [hchunks]
  by_cases hkey : key = name
  · subst hkey
    rw [if_pos rfl]
    rcases extend_eq_ok hextend with ⟨hnone, -⟩ | ⟨old', hold', hend, rfl⟩
    · rw [hold] at hnone
      cases hnone
    · obtain rfl := Option.some.inj (hold.symm.trans hold')
      exact ⟨_, rfl, Nat.le_add_right .., fun _ => hend⟩
  · rw [if_neg hkey]
    exact ⟨old.size, hold, Nat.le_refl _, fun hne => absurd rfl hne⟩

/-- Bytes appended in two steps are appended in one.  A chunk that ends at or
below the fill mark cannot wait for a later step to get longer, since the fill
mark has moved on by then. -/
theorem Appends.trans {a b c : DataSegment} {xs ys : List UInt8} (h : Appends a xs b)
    (k : Appends b ys c)
    (hchunks : ∀ {name chunk}, a.chunk? name = some chunk → chunk.offset + chunk.size ≤ a.used) :
    Appends a (xs ++ ys) c where
  base_eq := k.base_eq.trans h.base_eq
  capacity_eq := k.capacity_eq.trans h.capacity_eq
  used_eq := by rw [k.used_eq, h.used_eq, List.length_append, Nat.add_assoc]
  get_eq i := by
    rw [k.get_eq, h.get_eq, h.used_eq, List.getElem?_append]
    grind
  chunk_eq {name chunk} ha := by
    obtain ⟨size, hb, hle, hgrown⟩ := h.chunk_eq ha
    obtain ⟨size', hc, hle', hgrown'⟩ := k.chunk_eq hb
    refine ⟨size', hc, Nat.le_trans hle hle', fun hne => ?_⟩
    by_cases hsize : chunk.size = size
    · have hend := hgrown' (by rw [← hsize]; exact hne)
      have := hchunks ha
      have := h.used_eq
      simp only at hend
      omega
    · exact hgrown hsize

namespace Appends

variable {old new : DataSegment} {bytes : List UInt8}

/-- The bytes behind the old fill mark are the appended ones. -/
theorem slice_eq (h : Appends old bytes new) :
    new.region.bytes.slice old.used bytes.length = bytes := by
  refine List.ext_getElem? fun i => ?_
  by_cases hi : i < bytes.length
  · have hget := h.get_eq (old.used + i)
    simp_all [SparseBytes.slice]
  · simp [SparseBytes.slice, hi]

theorem get_of_lt (h : Appends old bytes new) {i : Nat} (hi : i < old.used) :
    new.region.bytes.get i = old.region.bytes.get i := by
  rw [h.get_eq, if_neg (by omega)]

theorem get_of_le (h : Appends old bytes new) {i : Nat} (hi : new.used ≤ i) :
    new.region.bytes.get i = old.region.bytes.get i := by
  have hused := h.used_eq
  rw [h.get_eq, if_pos (by omega), List.getElem?_eq_none (by omega), Option.getD_none]

/-- A name keeps its address. -/
theorem address?_eq (h : Appends old bytes new) {name : String} {address : UInt32}
    (hold : old.address? name = some address) : new.address? name = some address := by
  obtain ⟨chunk, hchunk, rfl⟩ := Option.map_eq_some_iff.1 hold
  obtain ⟨size, hnew, -, -⟩ := h.chunk_eq hchunk
  simp [address?, hnew]

end Appends

/-! ## The invariant -/

theorem sound_new (capacity : Nat) : Sound capacity (new capacity) where
  base_eq := rfl
  capacity_eq := rfl
  used_le := Nat.zero_le _
  chunk_le h := by cases h

/-- A declaration keeps the invariant. -/
theorem Sound.add {capacity : Nat} {data data' : DataSegment} {name : String}
    {bytes : List UInt8} {size : Nat} (hsound : Sound capacity data)
    (h : data.add name bytes size = .ok data') : Sound capacity data' := by
  obtain ⟨hfree, hbase, hcapacity, hused, ⟨chunk, hextend, hchunks⟩, -⟩ := add_eq_ok h
  have hcap := hsound.capacity_eq
  have hmark := hsound.used_le
  refine ⟨hbase.trans hsound.base_eq, hcapacity.trans hcap, ?_, fun {key chunk'} hkey => ?_⟩
  · rw [free, hcap] at hfree
    omega
  · rw [hchunks] at hkey
    split at hkey
    · obtain rfl := Option.some.inj hkey
      rcases extend_eq_ok hextend with ⟨-, rfl⟩ | ⟨old, -, hend, rfl⟩
      · simp [hused]
      · simp only
        omega
    · have := hsound.chunk_le hkey
      omega

/-- What is stored does not matter to the invariant. -/
theorem Sound.withBytes {capacity : Nat} {data : DataSegment} (hsound : Sound capacity data)
    (bytes : SparseBytes) : Sound capacity { data with region := { data.region with bytes } } :=
  ⟨hsound.base_eq, hsound.capacity_eq, hsound.used_le, hsound.chunk_le⟩

theorem Reachable.sound {capacity : Nat} {data : DataSegment} (h : Reachable capacity data) :
    Sound capacity data := by
  induction h with
  | new => exact sound_new capacity
  | add _ hadd ih => exact ih.add hadd
  | storeByte _ hstore ih =>
    obtain ⟨region, hregion, rfl⟩ := Option.map_eq_some_iff.1 hstore
    obtain ⟨offset, -, rfl⟩ := Option.map_eq_some_iff.1 hregion
    exact ih.withBytes _
  | storeWord _ hstore ih =>
    obtain ⟨region, hregion, rfl⟩ := Option.map_eq_some_iff.1 hstore
    obtain ⟨offset, -, rfl⟩ := Option.map_eq_some_iff.1 hregion
    exact ih.withBytes _

end X86Listing.DataSegment
