import X86Listing.Power

/-!
# The address map

Addresses are 32-bit words.  Three disjoint regions are mapped.

* The data segment starts at `dataBase`.
* Code starts at `codeBase` and has one address for each instruction.
* The stack starts at `stackBase` and grows downwards from its end.

`codeAddress` and `codeIndex?` go from instruction to address and back;
`codeIndex?_eq_some_iff` says which addresses are instructions.
-/

namespace X86Listing

/-- The first address of the data segment. -/
def dataBase : UInt32 := 0x10000

/-- The address of the first instruction of a procedure. -/
def codeBase : UInt32 := 0x400000

/-- The lowest address of the stack. -/
def stackBase : UInt32 := 0x800000

/-- The return address that marks the end of a run. -/
def returnSentinel : UInt32 := 0xbeaf

/-- The address of the instruction at an index. -/
def codeAddress (index : Nat) : UInt32 :=
  codeBase + UInt32.ofNat index

/-- The index of the instruction at an address, for code of `len`
instructions. -/
def codeIndex? (address : UInt32) (len : Nat) : Option Nat :=
  if codeBase ≤ address ∧ (address - codeBase).toNat < len then
    some (address - codeBase).toNat
  else
    none

/-- An offset is added to an address as long as nothing wraps around. -/
theorem toNat_add_ofNat {address : UInt32} {offset : Nat}
    (h : address.toNat + offset < 2 ^ 32) :
    (address + UInt32.ofNat offset).toNat = address.toNat + offset := by
  have hoffset : (UInt32.ofNat offset).toNat = offset := UInt32.toNat_ofNat_of_lt' (by
    rw [UInt32.size]
    omega)
  rw [UInt32.toNat_add, hoffset]
  exact Nat.mod_eq_of_lt h

/-- Addresses are counted from the code base as long as they do not wrap around. -/
theorem toNat_codeAddress {index : Nat} (h : index < 2 ^ 32 - codeBase.toNat) :
    (codeAddress index).toNat = codeBase.toNat + index :=
  toNat_add_ofNat (by omega)

theorem codeIndex?_eq_some_iff {address : UInt32} {len index : Nat} :
    codeIndex? address len = some index ↔
      address.toNat = codeBase.toNat + index ∧ index < len := by
  unfold codeIndex?
  have hbound := address.toNat_lt
  by_cases hle : codeBase ≤ address
  · have hsub : (address - codeBase).toNat = address.toNat - codeBase.toNat :=
      UInt32.toNat_sub_of_le _ _ hle
    have hle' : codeBase.toNat ≤ address.toNat := UInt32.le_iff_toNat_le.1 hle
    split
    · next h =>
      rw [hsub] at h
      simp only [hsub, Option.some.injEq]
      omega
    · next h =>
      rw [hsub] at h
      simp only [reduceCtorEq, false_iff]
      intro hk
      exact h ⟨hle, by omega⟩
  · have hlt : address.toNat < codeBase.toNat := by
      rw [UInt32.le_iff_toNat_le] at hle
      omega
    simp only [hle, false_and, if_false, reduceCtorEq, false_iff]
    omega

end X86Listing
