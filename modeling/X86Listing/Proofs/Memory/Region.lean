import X86Listing.AddressMap
import X86Listing.Memory.Region

/-!
# Loads and stores in a region

A region is a map from addresses to bytes, and every access can be told by that map.

* `offset?_eq_ite` says which accesses are inside.
* `loadWord?_eq_wordOfBytes` says that a word is made of four bytes in a row.
* `store?` stores any number of bytes.  Storing a byte or a word is the same with one
  byte or four (`storeByte?_eq`, `storeWord?_eq`).
* `loadByte?_store?` is what a store does to the map.  `loadByte?_writeAt_of_le` and
  `loadWord?_writeAt_of_le` are a byte and a word that it does not meet.
-/

namespace X86Listing.Region

variable {region region' : Region} {address : UInt32}

/-! ## Accesses inside a region -/

/-- An access inside the region, by the distance from the base. -/
theorem offset?_eq_some {len : Nat} (hlow : region.base.toNat ≤ address.toNat)
    (hhigh : address.toNat + len ≤ region.base.toNat + region.size) :
    region.offset? address len = some (address.toNat - region.base.toNat) :=
  offset?_eq_some_iff.2 ⟨by omega, by omega⟩

theorem offset?_eq_none {len : Nat}
    (h : ¬ (region.base.toNat ≤ address.toNat ∧
      address.toNat + len ≤ region.base.toNat + region.size)) :
    region.offset? address len = none := by
  refine Option.eq_none_iff_forall_ne_some.2 fun offset hoffset => h ?_
  obtain ⟨haddress, hsize⟩ := offset?_eq_some_iff.1 hoffset
  omega

theorem offset?_eq_ite (region : Region) (address : UInt32) (len : Nat) :
    region.offset? address len =
      if region.base.toNat ≤ address.toNat ∧
        address.toNat + len ≤ region.base.toNat + region.size
      then some (address.toNat - region.base.toNat) else none := by
  split
  · next h => exact offset?_eq_some h.1 h.2
  · next h => exact offset?_eq_none h

/-! ## Loads -/

theorem loadByte?_eq_ite (region : Region) (address : UInt32) :
    region.loadByte? address =
      if region.base.toNat ≤ address.toNat ∧
        address.toNat < region.base.toNat + region.size
      then some (region.bytes.get (address.toNat - region.base.toNat)) else none := by
  rw [loadByte?, offset?_eq_ite]
  by_cases h : region.base.toNat ≤ address.toNat ∧
      address.toNat < region.base.toNat + region.size
  · rw [if_pos ⟨h.1, by omega⟩, if_pos h, Option.map_some]
  · rw [if_neg (by omega), if_neg h, Option.map_none]

/-- The four bytes of a word that is loaded are inside the region. -/
theorem bounds_of_loadWord? {word : UInt32} (h : region.loadWord? address = some word) :
    region.base.toNat ≤ address.toNat ∧
      address.toNat + 4 ≤ region.base.toNat + region.size := by
  obtain ⟨offset, hoffset, -⟩ := Option.map_eq_some_iff.1 h
  obtain ⟨haddress, hsize⟩ := offset?_eq_some_iff.1 hoffset
  omega

/-- A byte of an access that does not wrap around. -/
theorem loadByte?_add {len offset k : Nat} (h : region.offset? address len = some offset)
    (hk : k < len) (hwrap : address.toNat + k < 2 ^ 32) :
    region.loadByte? (address + UInt32.ofNat k) = some (region.bytes.get (offset + k)) := by
  obtain ⟨haddress, hsize⟩ := offset?_eq_some_iff.1 h
  have hbyte : region.offset? (address + UInt32.ofNat k) 1 = some (offset + k) := by
    refine offset?_eq_some_iff.2 ⟨?_, by omega⟩
    rw [toNat_add_ofNat hwrap]
    omega
  rw [loadByte?, hbyte, Option.map_some]

/-- A word is made of the byte at its address and the three behind it. -/
theorem loadWord?_eq_wordOfBytes (region : Region) (address : UInt32)
    (hlow : region.base.toNat ≤ address.toNat)
    (hhigh : address.toNat + 4 ≤ region.base.toNat + region.size)
    (hwrap : address.toNat + 3 < 2 ^ 32) :
    ∃ b0 b1 b2 b3, region.loadByte? address = some b0 ∧
      region.loadByte? (address + 1) = some b1 ∧ region.loadByte? (address + 2) = some b2 ∧
      region.loadByte? (address + 3) = some b3 ∧
      region.loadWord? address = some (wordOfBytes b0 b1 b2 b3) := by
  have hoffset := offset?_eq_some hlow hhigh
  have h0 := loadByte?_add (k := 0) hoffset (by omega) (by omega)
  have h1 := loadByte?_add (k := 1) hoffset (by omega) (by omega)
  have h2 := loadByte?_add (k := 2) hoffset (by omega) (by omega)
  have h3 := loadByte?_add (k := 3) hoffset (by omega) (by omega)
  rw [show address + UInt32.ofNat 0 = address from UInt32.add_zero address] at h0
  refine ⟨_, _, _, _, h0, h1, h2, h3, ?_⟩
  rw [loadWord?, hoffset]
  rfl

/-! ## Stores -/

/-- The region after some bytes are stored from an address on. -/
def store? (region : Region) (address : UInt32) (values : List UInt8) : Option Region :=
  (region.offset? address values.length).map fun offset => region.writeAt offset values

theorem storeByte?_eq (region : Region) (address : UInt32) (value : UInt8) :
    region.storeByte? address value = region.store? address [value] := rfl

theorem storeWord?_eq (region : Region) (address value : UInt32) :
    region.storeWord? address value = region.store? address (bytesOfWord value) := rfl

theorem store?_eq_some_iff {values : List UInt8} :
    region.store? address values = some region' ↔
      region.base.toNat ≤ address.toNat ∧
      address.toNat + values.length ≤ region.base.toNat + region.size ∧
      region' = region.writeAt (address.toNat - region.base.toNat) values := by
  rw [store?, offset?_eq_ite]
  split
  · next h =>
    rw [Option.map_some, Option.some.injEq]
    exact ⟨fun heq => ⟨h.1, h.2, heq.symm⟩, fun heq => heq.2.2.symm⟩
  · next h =>
    rw [Option.map_none]
    exact ⟨fun heq => (by cases heq), fun heq => absurd ⟨heq.1, heq.2.1⟩ h⟩

theorem store?_eq_none {values : List UInt8}
    (h : ¬ (region.base.toNat ≤ address.toNat ∧
      address.toNat + values.length ≤ region.base.toNat + region.size)) :
    region.store? address values = none := by
  rw [store?, offset?_eq_none h, Option.map_none]

@[simp]
theorem base_writeAt (offset : Nat) (values : List UInt8) :
    (region.writeAt offset values).base = region.base := rfl

@[simp]
theorem size_writeAt (offset : Nat) (values : List UInt8) :
    (region.writeAt offset values).size = region.size := rfl

theorem get_writeAt (offset : Nat) (values : List UInt8) (i : Nat) :
    (region.writeAt offset values).bytes.get i =
      if offset ≤ i then values[i - offset]?.getD (region.bytes.get i)
      else region.bytes.get i :=
  SparseBytes.get_write ..

/-- A byte outside the bytes that were written is still there. -/
theorem get_writeAt_of_outside {offset i : Nat} {values : List UInt8}
    (h : i < offset ∨ offset + values.length ≤ i) :
    (region.writeAt offset values).bytes.get i = region.bytes.get i := by
  rw [get_writeAt]
  split
  · rw [List.getElem?_eq_none (by omega), Option.getD_none]
  · rfl

/-- A store puts its bytes where it was told and leaves the others. -/
theorem loadByte?_store? {values : List UInt8}
    (h : region.store? address values = some region') (other : UInt32) :
    region'.loadByte? other =
      if address.toNat ≤ other.toNat ∧ other.toNat < address.toNat + values.length
      then values[other.toNat - address.toNat]? else region.loadByte? other := by
  obtain ⟨hlow, hhigh, rfl⟩ := store?_eq_some_iff.1 h
  rw [loadByte?_eq_ite, loadByte?_eq_ite, base_writeAt, size_writeAt]
  by_cases hin : address.toNat ≤ other.toNat ∧ other.toNat < address.toNat + values.length
  · -- The byte is one of the new ones.
    have hindex : other.toNat - region.base.toNat - (address.toNat - region.base.toNat) =
        other.toNat - address.toNat := by omega
    have hlength : other.toNat - address.toNat < values.length := by omega
    rw [if_pos hin, if_pos (by omega), get_writeAt, if_pos (by omega), hindex,
      List.getElem?_eq_getElem hlength, Option.getD_some]
  · rw [if_neg hin]
    split
    · rw [get_writeAt_of_outside (by omega)]
    · rfl

/-- A byte above the bytes that were written is still there. -/
theorem loadByte?_writeAt_of_le {offset : Nat} {values : List UInt8}
    (h : region.base.toNat + offset + values.length ≤ address.toNat) :
    (region.writeAt offset values).loadByte? address = region.loadByte? address := by
  rw [loadByte?_eq_ite, loadByte?_eq_ite, base_writeAt, size_writeAt,
    get_writeAt_of_outside (by omega)]

/-- A word above the bytes that were written is still there. -/
theorem loadWord?_writeAt_of_le {offset : Nat} {values : List UInt8}
    (h : region.base.toNat + offset + values.length ≤ address.toNat) :
    (region.writeAt offset values).loadWord? address = region.loadWord? address := by
  rw [loadWord?, loadWord?, offset?_eq_ite, offset?_eq_ite, base_writeAt, size_writeAt]
  split
  · rw [Option.map_some, Option.map_some, wordAt, wordAt, get_writeAt_of_outside (by omega),
      get_writeAt_of_outside (by omega), get_writeAt_of_outside (by omega),
      get_writeAt_of_outside (by omega)]
  · rfl

end X86Listing.Region
