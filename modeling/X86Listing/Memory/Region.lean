import X86Listing.Memory.Sparse
import X86Listing.Memory.Word

/-!
# Regions of memory

A `Region` is a block of bytes mapped at a base address.  The data segment and
the stack are regions, so they obey one law of loads and stores.  An access of
`len` bytes is inside the region when its first byte is not below the base and
its last byte is not past the end; the end may not wrap around, because offsets
are natural numbers.

* `offset?` is the test for being inside, and `offset?_eq_some_iff` spells it
  out.
* `loadByte?` and `loadWord?` read, `storeByte?` and `storeWord?` write.  Each
  answers `none` exactly when the access is not inside.
-/

namespace X86Listing

/-- A block of bytes mapped at a base address. -/
structure Region where
  /-- The address of the first byte. -/
  base : UInt32
  /-- The number of bytes. -/
  size : Nat
  /-- The bytes, by their offset from the base. -/
  bytes : SparseBytes
deriving DecidableEq, Inhabited

namespace Region

/-- A region of zeros. -/
def zeroed (base : UInt32) (size : Nat) : Region :=
  ⟨base, size, .blank⟩

/-- The offset of an access of `len` bytes, if it is inside the region. -/
def offset? (region : Region) (address : UInt32) (len : Nat) : Option Nat :=
  if region.base ≤ address ∧ (address - region.base).toNat + len ≤ region.size then
    some (address - region.base).toNat
  else
    none

/-- Are the `len` bytes from an address on inside the region? -/
def contains (region : Region) (address : UInt32) (len : Nat) : Bool :=
  (region.offset? address len).isSome

/-- The word at an offset. -/
def wordAt (region : Region) (offset : Nat) : UInt32 :=
  wordOfBytes (region.bytes.get offset) (region.bytes.get (offset + 1))
    (region.bytes.get (offset + 2)) (region.bytes.get (offset + 3))

/-- The byte at an address. -/
def loadByte? (region : Region) (address : UInt32) : Option UInt8 :=
  (region.offset? address 1).map region.bytes.get

/-- The word at an address, which need not be a multiple of four. -/
def loadWord? (region : Region) (address : UInt32) : Option UInt32 :=
  (region.offset? address 4).map region.wordAt

/-- The region with bytes written from an offset on. -/
def writeAt (region : Region) (offset : Nat) (values : List UInt8) : Region :=
  { region with bytes := region.bytes.write offset values }

/-- The region after a byte is stored at an address. -/
def storeByte? (region : Region) (address : UInt32) (value : UInt8) : Option Region :=
  (region.offset? address 1).map fun offset => region.writeAt offset [value]

/-- The region after a word is stored at an address. -/
def storeWord? (region : Region) (address : UInt32) (value : UInt32) : Option Region :=
  (region.offset? address 4).map fun offset => region.writeAt offset (bytesOfWord value)

/-- The bytes from an offset on, up to the end of the region or the first zero. -/
def stringAt (region : Region) (offset : Nat) : List UInt8 :=
  go offset (region.size - offset)
where
  /-- Reads on while the byte is not zero, `room` bytes at most. -/
  go (offset : Nat) : Nat → List UInt8
    | 0 => []
    | room + 1 =>
      let byte := region.bytes.get offset
      if byte = 0 then [] else byte :: go (offset + 1) room

/-- An access is inside the region when it starts at the base or above and stops
at the end or below. -/
theorem offset?_eq_some_iff {region : Region} {address : UInt32} {len offset : Nat} :
    region.offset? address len = some offset ↔
      address.toNat = region.base.toNat + offset ∧ offset + len ≤ region.size := by
  unfold offset?
  by_cases hle : region.base ≤ address
  · have hsub : (address - region.base).toNat = address.toNat - region.base.toNat :=
      UInt32.toNat_sub_of_le _ _ hle
    have hle' : region.base.toNat ≤ address.toNat := UInt32.le_iff_toNat_le.1 hle
    rw [hsub]
    split
    · simp only [Option.some.injEq]
      omega
    · next h =>
      simp only [reduceCtorEq, false_iff]
      intro hk
      exact h ⟨hle, by omega⟩
  · have hlt : address.toNat < region.base.toNat := by
      rw [UInt32.le_iff_toNat_le] at hle
      omega
    simp only [hle, false_and, if_false, reduceCtorEq, false_iff]
    omega

theorem contains_iff {region : Region} {address : UInt32} {len : Nat} :
    region.contains address len = true ↔
      ∃ offset, address.toNat = region.base.toNat + offset ∧ offset + len ≤ region.size := by
  simp [contains, Option.isSome_iff_exists, offset?_eq_some_iff]

/-- A word that was just written is read back. -/
theorem wordAt_writeAt_self (region : Region) (offset : Nat) (value : UInt32) :
    (region.writeAt offset (bytesOfWord value)).wordAt offset = value := by
  have h1 : ¬ offset + 1 = offset := by omega
  simp [wordAt, writeAt, SparseBytes.get_write, bytesOfWord, wordOfBytes_bytesOfWord]

end Region

end X86Listing
