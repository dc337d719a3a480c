import X86Listing.Proofs.DataSegment.Append

/-!
# Words in the data segment

Words that were appended byte by byte are read back as words.
`DataSegment.loadWord?_of_slice` says so of a chunk that starts with a list of words,
also in another segment that holds the same bytes there (`DataSegment.SameBytes`).

* `getElem?_flatMap_bytesOfWord` finds the bytes of one word in those of a list.
* `Region.loadWord?_eq_some` makes a word of four bytes in a row.
* `DataSegment.Sound.loadByte?_eq` is where the address map comes in: a segment that
  ends below the code has no address that wraps around.
-/

namespace X86Listing

/-! ## Lists of words -/

@[simp]
theorem length_flatMap_bytesOfWord (values : List UInt32) :
    (values.flatMap bytesOfWord).length = 4 * values.length := by
  induction values with
  | nil => rfl
  | cons value values ih =>
    rw [List.flatMap_cons, List.length_append, ih, List.length_cons]
    show 4 + 4 * values.length = _
    omega

/-- The bytes of a list of words. -/
theorem getElem?_flatMap_bytesOfWord {values : List UInt32} {k : Nat} {value : UInt32}
    (h : values[k]? = some value) {i : Nat} (hi : i < 4) :
    (values.flatMap bytesOfWord)[4 * k + i]? = some (wordByte value i) := by
  induction values generalizing k with
  | nil => cases h
  | cons first values ih =>
    rw [List.flatMap_cons]
    cases k with
    | zero =>
      obtain rfl : first = value := by simpa using h
      rw [List.getElem?_append_left (by show _ < 4; omega)]
      match i, hi with
      | 0, _ | 1, _ | 2, _ | 3, _ => rfl
    | succ k =>
      rw [List.getElem?_append_right (by show 4 ≤ _; omega)]
      have hindex : 4 * (k + 1) + i - (bytesOfWord first).length = 4 * k + i := by
        show 4 * (k + 1) + i - 4 = _
        omega
      rw [hindex]
      exact ih (by simpa using h)

/-! ## Loads -/

/-- Four bytes in a row are a word. -/
theorem Region.loadWord?_eq_some {region : Region} {address value : UInt32}
    (hwrap : address.toNat + 3 < 2 ^ 32)
    (h : ∀ i < 4, region.loadByte? (address + UInt32.ofNat i) = some (wordByte value i)) :
    region.loadWord? address = some value := by
  have hbyte (i : Nat) (hi : i < 4) :
      ∃ offset, address.toNat + i = region.base.toNat + offset ∧ offset + 1 ≤ region.size ∧
        region.bytes.get offset = wordByte value i := by
    obtain ⟨offset, hoffset, hget⟩ := Option.map_eq_some_iff.1 (h i hi)
    obtain ⟨haddress, hsize⟩ := Region.offset?_eq_some_iff.1 hoffset
    have htoNat : (address + UInt32.ofNat i).toNat = address.toNat + i :=
      toNat_add_ofNat (by omega)
    exact ⟨offset, by omega, hsize, hget⟩
  obtain ⟨offset, h0, -, hget0⟩ := hbyte 0 (by omega)
  obtain ⟨offset1, h1, -, hget1⟩ := hbyte 1 (by omega)
  obtain ⟨offset2, h2, -, hget2⟩ := hbyte 2 (by omega)
  obtain ⟨offset3, h3, hsize, hget3⟩ := hbyte 3 (by omega)
  obtain rfl : offset1 = offset + 1 := by omega
  obtain rfl : offset2 = offset + 2 := by omega
  obtain rfl : offset3 = offset + 3 := by omega
  have hoffset : region.offset? address 4 = some offset :=
    Region.offset?_eq_some_iff.2 ⟨by omega, by omega⟩
  rw [Region.loadWord?, hoffset, Option.map_some, Region.wordAt, hget0, hget1, hget2, hget3,
    wordOfBytes_bytesOfWord]

namespace DataSegment

variable {capacity : Nat} {data : DataSegment}

/-- The byte at an offset, by its address. -/
theorem Sound.loadByte?_eq (h : data.Sound capacity)
    (hcapacity : capacity ≤ codeBase.toNat - dataBase.toNat) {offset : Nat}
    (hoffset : offset < capacity) :
    data.loadByte? (dataBase + UInt32.ofNat offset) = some (data.region.bytes.get offset) := by
  have hsize : data.region.size = capacity := h.capacity_eq
  have hbase : codeBase.toNat - dataBase.toNat = 0x3f0000 := rfl
  have hsum : dataBase.toNat + offset < 2 ^ 32 := by
    show 0x10000 + offset < _
    omega
  have hinside : data.region.offset? (dataBase + UInt32.ofNat offset) 1 = some offset :=
    Region.offset?_eq_some_iff.2 ⟨by rw [toNat_add_ofNat hsum, h.base_eq], by omega⟩
  rw [loadByte?, Region.loadByte?, hinside, Option.map_some]

/-- Two segments hold the same bytes in a chunk. -/
def SameBytes (chunk : Chunk) (a b : DataSegment) : Prop :=
  ∀ i < chunk.size, a.loadByte? (dataBase + UInt32.ofNat (chunk.offset + i)) =
    b.loadByte? (dataBase + UInt32.ofNat (chunk.offset + i))

/-- A word of a chunk that starts with words, read from a segment with the same
bytes. -/
theorem loadWord?_of_slice (hsound : data.Sound capacity)
    (hcapacity : capacity ≤ codeBase.toNat - dataBase.toNat) {name : String} {chunk : Chunk}
    (hchunk : data.chunk? name = some chunk) {values : List UInt32}
    (hsize : 4 * values.length ≤ chunk.size)
    (hslice : data.region.bytes.slice chunk.offset (4 * values.length) =
      values.flatMap bytesOfWord) {other : DataSegment} (hsame : SameBytes chunk other data)
    {k : Nat} {value : UInt32} (hvalue : values[k]? = some value) :
    other.loadWord? (dataBase + UInt32.ofNat (chunk.offset + 4 * k)) = some value := by
  have hk : k < values.length := (List.getElem?_eq_some_iff.1 hvalue).1
  have hend : chunk.offset + chunk.size ≤ capacity :=
    Nat.le_trans (hsound.chunk_le hchunk) hsound.used_le
  have hspace : codeBase.toNat - dataBase.toNat = 0x3f0000 := rfl
  have hbase : dataBase.toNat = 0x10000 := rfl
  have haddress {i : Nat} (hi : chunk.offset + i < capacity) :
      (dataBase + UInt32.ofNat (chunk.offset + i)).toNat = dataBase.toNat + (chunk.offset + i) :=
    toNat_add_ofNat (by omega)
  have hfirst := haddress (i := 4 * k) (by omega)
  refine Region.loadWord?_eq_some (by omega) fun i hi => ?_
  have hbyte : dataBase + UInt32.ofNat (chunk.offset + 4 * k) + UInt32.ofNat i =
      dataBase + UInt32.ofNat (chunk.offset + (4 * k + i)) := by
    apply UInt32.toNat_inj.1
    rw [toNat_add_ofNat (by omega), hfirst, haddress (by omega)]
    omega
  have hget : data.region.bytes.get (chunk.offset + (4 * k + i)) = wordByte value i := by
    have hentry := getElem?_flatMap_bytesOfWord hvalue hi
    rw [← hslice, SparseBytes.slice, List.getElem?_map,
      List.getElem?_range' (by omega)] at hentry
    simpa using hentry
  rw [hbyte]
  show other.loadByte? _ = _
  rw [hsame _ (by omega), hsound.loadByte?_eq hcapacity (by omega), hget]

end DataSegment

end X86Listing
