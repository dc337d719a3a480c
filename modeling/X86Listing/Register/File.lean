import X86Listing.Register.Basic

/-!
# The register file

`RegisterFile` holds the sixteen slots.  `value` reads a register through its
view and `set` writes it, leaving the bytes outside the view.  The stack top is
the slot of `esp` and the flags are the slot of `eflags`; there is no other copy
of either.
-/

namespace X86Listing

/-- The contents of the sixteen register slots. -/
structure RegisterFile where
  /-- The slots, in the order of their numbers. -/
  slots : Vector UInt32 16
deriving DecidableEq, Repr

namespace RegisterFile

/-- The register file with zero in every slot. -/
def zero : RegisterFile := ⟨Vector.replicate 16 0⟩

instance : Inhabited RegisterFile := ⟨zero⟩

/-- The word in a slot. -/
def slot (file : RegisterFile) (i : Fin 16) : UInt32 :=
  file.slots[i.val]

/-- The file with a word put into a slot. -/
def setSlot (file : RegisterFile) (i : Fin 16) (word : UInt32) : RegisterFile :=
  ⟨file.slots.set i.val word i.isLt⟩

/-- The value of a register. -/
def value (file : RegisterFile) (reg : Reg) : UInt32 :=
  reg.view.read (file.slot reg.slot)

/-- The file after a write to a register. -/
def set (file : RegisterFile) (reg : Reg) (value : UInt32) : RegisterFile :=
  file.setSlot reg.slot (reg.view.write (file.slot reg.slot) value)

/-- The flags. -/
def flags (file : RegisterFile) : UInt32 :=
  file.slot Reg.eflags.slot

/-- The file with other flags. -/
def setFlags (file : RegisterFile) (flags : UInt32) : RegisterFile :=
  file.setSlot Reg.eflags.slot flags

/-- The address of the stack top. -/
def esp (file : RegisterFile) : UInt32 :=
  file.slot Reg.esp.slot

/-- The file with another stack top. -/
def setEsp (file : RegisterFile) (address : UInt32) : RegisterFile :=
  file.setSlot Reg.esp.slot address

/-- The words of all slots. -/
def toList (file : RegisterFile) : List UInt32 :=
  file.slots.toList

@[simp]
theorem slot_setSlot_self (file : RegisterFile) (i : Fin 16) (word : UInt32) :
    (file.setSlot i word).slot i = word := by
  simp [slot, setSlot]

/-- A write to one slot leaves the others. -/
theorem slot_setSlot_of_ne (file : RegisterFile) {i j : Fin 16} (word : UInt32) (h : i ≠ j) :
    (file.setSlot i word).slot j = file.slot j := by
  have hne : i.val ≠ j.val := fun he => h (Fin.ext he)
  simp [slot, setSlot, hne]

/-- Files with the same words in all slots are equal. -/
theorem ext_slot {a b : RegisterFile} (h : ∀ i, a.slot i = b.slot i) : a = b := by
  obtain ⟨xs⟩ := a
  obtain ⟨ys⟩ := b
  congr 1
  exact Vector.ext fun i hi => h ⟨i, hi⟩

end RegisterFile

/-! ## Flags -/

namespace Flag

/-- The carry flag, set when the left operand of a comparison is below the
right. -/
def carry : UInt32 := 0x01

/-- The zero flag, set when the operands of a comparison are equal. -/
def zero : UInt32 := 0x40

/-- The sign flag, set together with the carry flag. -/
def sign : UInt32 := 0x80

end Flag

/-- The flags after a comparison of two words, read as unsigned numbers.  The
flags before it do not matter. -/
def compareFlags (a b : UInt32) : UInt32 :=
  if a = b then Flag.zero
  else if a < b then Flag.carry ||| Flag.sign
  else 0

end X86Listing
