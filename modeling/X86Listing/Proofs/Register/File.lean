import X86Listing.Register.File

/-!
# Registers of a file

What a register shows after a write to another slot, and after a write to itself.
Slots of given registers are told apart by evaluation, so these lemmas rewrite the
registers of a given piece of code.

`pair` is the 64-bit number of which `edx` is the high word and `eax` the low one.
-/

namespace X86Listing

/-- The low byte after a write to the low byte. -/
theorem View.read_write_low8 (word value : UInt32) :
    low8.read (low8.write word value) = value &&& 0xff := by
  show ((word &&& 0xffffff00) ||| (value &&& 0xff)) &&& 0xff = value &&& 0xff
  have hdisjoint : (0xffffff00 : UInt32).toNat &&& (0xff : UInt32).toNat = 0 := rfl
  apply UInt32.toNat_inj.1
  simp only [UInt32.toNat_and, UInt32.toNat_or]
  rw [Nat.and_or_distrib_right, Nat.and_assoc, Nat.and_assoc, hdisjoint, Nat.and_self,
    Nat.and_zero, Nat.zero_or]

namespace RegisterFile

variable {file : RegisterFile} {reg other : Reg} {word : UInt32}

theorem slot_setSlot (i j : Fin 16) :
    (file.setSlot i word).slot j = if i = j then word else file.slot j := by
  split
  · next h =>
    subst h
    exact slot_setSlot_self ..
  · next h => exact slot_setSlot_of_ne file word h

/-! ## Writes to a register -/

theorem set_eq_setSlot (h : reg.view = .full32) :
    file.set reg word = file.setSlot reg.slot word := by
  rw [set, h]
  rfl

theorem value_set_of_ne (h : reg.slot ≠ other.slot) :
    (file.set reg word).value other = file.value other := by
  rw [value, set, slot_setSlot_of_ne file _ h, value]

theorem value_set_self (h : reg.view = .full32) : (file.set reg word).value reg = word := by
  rw [value, set, slot_setSlot_self, h]
  rfl

theorem value_set_low8 (h : reg.view = .low8) :
    (file.set reg word).value reg = word &&& 0xff := by
  rw [value, set, slot_setSlot_self, h, View.read_write_low8]

theorem esp_set (h : reg.slot ≠ Reg.esp.slot) : (file.set reg word).esp = file.esp :=
  slot_setSlot_of_ne file _ h

/-! ## Flags and the stack top -/

theorem flags_setFlags : (file.setFlags word).flags = word :=
  slot_setSlot_self file _ word

theorem flags_set (h : reg.slot ≠ Reg.eflags.slot) : (file.set reg word).flags = file.flags :=
  slot_setSlot_of_ne file _ h

theorem value_setFlags (h : Reg.eflags.slot ≠ other.slot) :
    (file.setFlags word).value other = file.value other := by
  rw [value, setFlags, slot_setSlot_of_ne file _ h, value]

theorem esp_setFlags : (file.setFlags word).esp = file.esp :=
  slot_setSlot_of_ne file _ (by decide)

theorem esp_setEsp : (file.setEsp word).esp = word :=
  slot_setSlot_self file _ word

theorem value_setEsp (h : Reg.esp.slot ≠ other.slot) :
    (file.setEsp word).value other = file.value other := by
  rw [value, setEsp, slot_setSlot_of_ne file _ h, value]

/-! ## The pair of `edx` and `eax` -/

/-- The number in `edx:eax`. -/
def pair (file : RegisterFile) : Nat :=
  2 ^ 32 * (file.value .edx).toNat + (file.value .eax).toNat

/-- The file with two words put into `edx:eax`. -/
def setPair (file : RegisterFile) (low high : UInt32) : RegisterFile :=
  (file.set .eax low).set .edx high

/-- Files that differ in `eax` and `edx` at most. -/
def SameButPair (before after : RegisterFile) : Prop :=
  ∀ i, i ≠ Reg.eax.slot → i ≠ Reg.edx.slot → after.slot i = before.slot i

variable {low high : UInt32}

theorem value_eax_setPair : (file.setPair low high).value .eax = low := by
  rw [setPair, value_set_of_ne (by decide), value_set_self rfl]

theorem value_edx_setPair : (file.setPair low high).value .edx = high :=
  value_set_self rfl

theorem pair_setPair : (file.setPair low high).pair = 2 ^ 32 * high.toNat + low.toNat := by
  rw [pair, value_edx_setPair, value_eax_setPair]

theorem sameButPair_setPair : file.SameButPair (file.setPair low high) := by
  intro i heax hedx
  rw [setPair, set, slot_setSlot_of_ne _ _ hedx.symm, set, slot_setSlot_of_ne _ _ heax.symm]

end RegisterFile

end X86Listing
