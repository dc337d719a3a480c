import X86Listing.Power

/-!
# Little-endian words

A word is stored with its lowest byte at the lowest address.  `bytesOfWord` and
`wordOfBytes` go between a 32-bit word and its four bytes, and
`wordOfBytes_bytesOfWord` says that nothing is lost on the way.
-/

namespace X86Listing

/-- Byte `i` of a word, counted from the lowest. -/
def wordByte (word : UInt32) (i : Nat) : UInt8 :=
  UInt8.ofNat (word.toNat / 256 ^ i)

/-- The four bytes of a word, lowest first. -/
def bytesOfWord (word : UInt32) : List UInt8 :=
  [wordByte word 0, wordByte word 1, wordByte word 2, wordByte word 3]

/-- The word of four bytes, lowest first. -/
def wordOfBytes (b0 b1 b2 b3 : UInt8) : UInt32 :=
  UInt32.ofNat (b0.toNat + 256 * (b1.toNat + 256 * (b2.toNat + 256 * b3.toNat)))

theorem toNat_wordByte (word : UInt32) (i : Nat) :
    (wordByte word i).toNat = word.toNat / 256 ^ i % 256 := by
  simp [wordByte]

theorem toNat_wordOfBytes (b0 b1 b2 b3 : UInt8) :
    (wordOfBytes b0 b1 b2 b3).toNat =
      b0.toNat + 256 * (b1.toNat + 256 * (b2.toNat + 256 * b3.toNat)) := by
  have h0 := b0.toNat_lt
  have h1 := b1.toNat_lt
  have h2 := b2.toNat_lt
  have h3 := b3.toNat_lt
  rw [wordOfBytes, UInt32.toNat_ofNat_of_lt']
  have : UInt32.size = 4294967296 := rfl
  omega

/-- A word is composed of its bytes. -/
theorem wordOfBytes_bytesOfWord (word : UInt32) :
    wordOfBytes (wordByte word 0) (wordByte word 1) (wordByte word 2) (wordByte word 3) = word := by
  apply UInt32.toNat_inj.1
  have h := word.toNat_lt
  rw [toNat_wordOfBytes]
  simp only [toNat_wordByte]
  omega

end X86Listing
