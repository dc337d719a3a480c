import Mathlib.Data.Nat.Bitwise
import X86Listing.Memory.Word
import X86Listing.Proofs.Register.File

/-!
# Registers as views of bytes

A slot is four bytes, and a register names some of them that stand side by side.  Reading a
register shows these bytes and no others, and writing it replaces them and no others, so every
law of reads and writes is a statement about single bytes.

* `View.Covers` says which bytes of a slot a view names, and `Reg.Overlaps` that two registers
  share one.
* `View.wordByte_read` and `View.wordByte_write` say where each byte comes from.
* `RegisterFile.wordByte_slot_set` and `RegisterFile.wordByte_value_set` say so of a file, and
  `RegisterFile.ext_wordByte` says that nothing else counts.
* `RegisterFile.set_lens` puts the laws together.
-/

namespace X86Listing

/-! ## Bytes of a word -/

theorem testBit_eq_false_of_le {i : Nat} (word : UInt32) (h : 32 ≤ i) :
    word.toNat.testBit i = false :=
  Nat.testBit_lt_two_pow (word.toNat_lt.trans_le (Nat.pow_le_pow_right (by decide) h))

theorem testBit_wordByte (word : UInt32) (k j : Nat) :
    (wordByte word k).toNat.testBit j =
      (decide (j < 8) && word.toNat.testBit (8 * k + j)) := by
  have hpow : 256 ^ k = 2 ^ (8 * k) := by rw [Nat.pow_mul]
  rw [toNat_wordByte, hpow, show 256 = 2 ^ 8 from rfl, Nat.testBit_mod_two_pow,
    Nat.testBit_div_two_pow, Nat.add_comm]

/-- Words with the same bytes are equal. -/
theorem eq_of_wordByte_eq {a b : UInt32} (h : ∀ k, wordByte a k = wordByte b k) : a = b := by
  rw [← wordOfBytes_bytesOfWord a, ← wordOfBytes_bytesOfWord b, h 0, h 1, h 2, h 3]

/-- The bytes of a word that was cut out of another one. -/
theorem wordByte_of_window {part word : UInt32} {offset width : Nat}
    (h : part.toNat = word.toNat / 256 ^ offset % 256 ^ width) (k : Nat) :
    wordByte part k = if k < width then wordByte word (offset + k) else 0 := by
  apply UInt8.toNat_inj.1
  rw [toNat_wordByte, h]
  split
  · next hk =>
    -- The byte lies inside of what was cut out.
    obtain ⟨rest, rfl⟩ := Nat.exists_eq_add_of_lt hk
    have hpow : 256 ^ (k + rest + 1) = 256 ^ k * (256 * 256 ^ rest) := by
      rw [Nat.add_assoc, Nat.pow_add, Nat.pow_succ, Nat.mul_comm (256 ^ rest)]
    rw [toNat_wordByte, hpow, Nat.mod_mul_right_div_self, Nat.mod_mul_right_mod,
      Nat.div_div_eq_div_mul, ← Nat.pow_add]
  · next hk =>
    have hlt : word.toNat / 256 ^ offset % 256 ^ width < 256 ^ k :=
      (Nat.mod_lt _ (Nat.pow_pos (by decide))).trans_le (Nat.pow_le_pow_right (by decide) (by omega))
    rw [Nat.div_eq_of_lt hlt]
    rfl

/-! ## Views -/

namespace View

/-- The number of the first byte that a view names. -/
def offset : View → Nat
  | full32 => 0
  | low8 => 0
  | high8 => 1
  | low16 => 0

/-- The number of bytes that a view names. -/
def width : View → Nat
  | full32 => 4
  | low8 => 1
  | high8 => 1
  | low16 => 2

/-- The view names byte `k` of its slot. -/
def Covers (view : View) (k : Nat) : Prop :=
  view.offset ≤ k ∧ k < view.offset + view.width

instance (view : View) (k : Nat) : Decidable (view.Covers k) :=
  inferInstanceAs (Decidable (_ ∧ _))

theorem offset_add_width_le (view : View) : view.offset + view.width ≤ 4 := by
  cases view <;> decide

/-- A view is read by cutting its word off at both ends. -/
theorem toNat_read (view : View) (word : UInt32) :
    (view.read word).toNat = word.toNat / 256 ^ view.offset % 256 ^ view.width := by
  cases view with
  | full32 =>
    have hlt : word.toNat < 256 ^ 4 := word.toNat_lt
    rw [read, offset, width, Nat.pow_zero, Nat.div_one, Nat.mod_eq_of_lt hlt]
  | low8 =>
    rw [read, UInt32.toNat_and, offset, width, Nat.pow_zero, Nat.div_one]
    exact Nat.and_two_pow_sub_one_eq_mod _ 8
  | high8 =>
    rw [read, UInt32.toNat_and, UInt32.toNat_shiftRight, Nat.shiftRight_eq_div_pow, offset, width]
    exact Nat.and_two_pow_sub_one_eq_mod _ 8
  | low16 =>
    rw [read, UInt32.toNat_and, offset, width, Nat.pow_zero, Nat.div_one]
    exact Nat.and_two_pow_sub_one_eq_mod _ 16

/-- A view shows the bytes that it names, from byte zero on. -/
theorem wordByte_read (view : View) (word : UInt32) (k : Nat) :
    wordByte (view.read word) k =
      if k < view.width then wordByte word (view.offset + k) else 0 :=
  wordByte_of_window (view.toNat_read word) k

/-- A write through a view, bit by bit. -/
theorem testBit_write (view : View) (word value : UInt32) {i : Nat} (hi : i < 32) :
    (view.write word value).toNat.testBit i =
      if 8 * view.offset ≤ i ∧ i < 8 * (view.offset + view.width) then
        value.toNat.testBit (i - 8 * view.offset)
      else word.toNat.testBit i := by
  -- Which bits a mask keeps is looked up bit by bit.
  have hbyte : ∀ i < 32, Nat.testBit 0xff i = decide (i < 8) := by decide
  have hhalf : ∀ i < 32, Nat.testBit 0xffff i = decide (i < 16) := by decide
  have hlow8 : ∀ i < 32, Nat.testBit 0xffffff00 i = decide (8 ≤ i) := by decide
  have hhigh8 : ∀ i < 32, Nat.testBit 0xffff00ff i = decide (i < 8 ∨ 16 ≤ i) := by decide
  have hlow16 : ∀ i < 32, Nat.testBit 0xffff0000 i = decide (16 ≤ i) := by decide
  cases view with
  | full32 => simp [write, offset, width, hi]
  | low8 =>
    simp only [write, UInt32.toNat_or, UInt32.toNat_and, Nat.testBit_or, Nat.testBit_and,
      UInt32.reduceToNat, hbyte i hi, hlow8 i hi, offset, width]
    by_cases h : i < 8
    · simp [h, Nat.not_le.2 h]
    · simp [h, Nat.le_of_not_lt h]
  | high8 =>
    simp only [write, UInt32.toNat_or, UInt32.toNat_and, UInt32.toNat_shiftLeft, Nat.testBit_or,
      Nat.testBit_and, Nat.testBit_mod_two_pow, Nat.testBit_shiftLeft, UInt32.reduceToNat,
      hhigh8 i hi, hbyte (i - 8 % 32) (by omega), offset, width]
    by_cases h : i < 8
    · simp [h, Nat.not_le.2 h]
    · by_cases h' : i < 16
      · have hbit : i - 8 < 8 := by omega
        simp [h, hi, h', Nat.le_of_not_lt h, Nat.not_le.2 h', hbit]
      · have hbit : ¬i - 8 < 8 := by omega
        simp [h', Nat.le_of_not_lt h', hbit]
  | low16 =>
    simp only [write, UInt32.toNat_or, UInt32.toNat_and, Nat.testBit_or, Nat.testBit_and,
      UInt32.reduceToNat, hhalf i hi, hlow16 i hi, offset, width]
    by_cases h : i < 16
    · simp [h, Nat.not_le.2 h]
    · simp [h, Nat.le_of_not_lt h]

/-- A write through a view replaces the bytes that the view names. -/
theorem wordByte_write (view : View) (word value : UInt32) (k : Nat) :
    wordByte (view.write word value) k =
      if view.Covers k then wordByte value (k - view.offset) else wordByte word k := by
  have hend := view.offset_add_width_le
  apply UInt8.toNat_inj.1
  apply Nat.eq_of_testBit_eq
  intro j
  rw [apply_ite UInt8.toNat, testBit_wordByte]
  by_cases hj : j < 8
  · by_cases hk : view.Covers k
    · obtain ⟨hlow, hhigh⟩ := hk
      have hbit : 8 * k + j - 8 * view.offset = 8 * (k - view.offset) + j := by omega
      rw [if_pos ⟨hlow, hhigh⟩, testBit_wordByte, testBit_write view word value (by omega),
        if_pos (by omega), hbit]
    · rw [if_neg hk, testBit_wordByte]
      have hout : ¬(8 * view.offset ≤ 8 * k + j ∧
          8 * k + j < 8 * (view.offset + view.width)) := by
        rw [Covers] at hk
        omega
      by_cases hi : 8 * k + j < 32
      · rw [testBit_write view word value hi, if_neg hout]
      · rw [testBit_eq_false_of_le _ (by omega), testBit_eq_false_of_le _ (by omega)]
  · split <;> simp [hj, testBit_wordByte]

end View

/-! ## Registers -/

namespace Reg

/-- The registers share a byte. -/
def Overlaps (a b : Reg) : Prop :=
  a.slot = b.slot ∧ ∃ k < 4, a.view.Covers k ∧ b.view.Covers k

instance (a b : Reg) : Decidable (a.Overlaps b) :=
  inferInstanceAs (Decidable (_ ∧ _))

/-- The slot is in the low four bits of an encoding. -/
theorem slot_val (reg : Reg) : reg.slot.val = (reg.encoding &&& 0x0f).toNat := by
  rw [UInt8.toNat_and]
  exact (Nat.and_two_pow_sub_one_eq_mod _ 4).symm

/-- The view is in the two bits above. -/
theorem code_view (reg : Reg) : reg.view.code = reg.encoding >>> 4 &&& 0x03 := by
  have hcode : ∀ n < 16, (View.ofCode n).code.toNat = n % 4 := by decide
  have hlt : reg.encoding.toNat < 256 := reg.encoding.toNat_lt
  apply UInt8.toNat_inj.1
  rw [view, hcode _ (by omega), UInt8.toNat_and, UInt8.toNat_shiftRight, Nat.shiftRight_eq_div_pow]
  exact (Nat.and_two_pow_sub_one_eq_mod _ 2).symm

end Reg

/-! ## Register files -/

namespace RegisterFile

variable {file : RegisterFile} {reg other : Reg} {word word' : UInt32}

/-- Files with the same bytes in all slots are equal. -/
theorem ext_wordByte {a b : RegisterFile}
    (h : ∀ i k, wordByte (a.slot i) k = wordByte (b.slot i) k) : a = b :=
  ext_slot fun i => eq_of_wordByte_eq (h i)

/-- A write replaces the bytes that the register names, in its slot. -/
theorem wordByte_slot_set (file : RegisterFile) (reg : Reg) (word : UInt32) (i : Fin 16)
    (k : Nat) :
    wordByte ((file.set reg word).slot i) k =
      if i = reg.slot ∧ reg.view.Covers k then wordByte word (k - reg.view.offset)
      else wordByte (file.slot i) k := by
  rw [set, slot_setSlot]
  by_cases h : reg.slot = i
  · subst h
    rw [if_pos rfl, View.wordByte_write]
    simp
  · rw [if_neg h, if_neg fun hi => h hi.1.symm]

/-- What a register shows after a write to another one, or to itself. -/
theorem wordByte_value_set (file : RegisterFile) (reg other : Reg) (word : UInt32) (k : Nat) :
    wordByte ((file.set reg word).value other) k =
      if k < other.view.width then
        if other.slot = reg.slot ∧ reg.view.Covers (other.view.offset + k) then
          wordByte word (other.view.offset + k - reg.view.offset)
        else wordByte (file.slot other.slot) (other.view.offset + k)
      else 0 := by
  rw [value, View.wordByte_read, wordByte_slot_set]

/-- A register shows what was written, less the bytes that do not fit. -/
theorem value_set_same (file : RegisterFile) (reg : Reg) (word : UInt32) :
    (file.set reg word).value reg = UInt32.ofNat (word.toNat % 256 ^ reg.view.width) := by
  have hlt : word.toNat % 256 ^ reg.view.width < UInt32.size :=
    (Nat.mod_le ..).trans_lt word.toNat_lt
  have hcut : (UInt32.ofNat (word.toNat % 256 ^ reg.view.width)).toNat =
      word.toNat / 256 ^ 0 % 256 ^ reg.view.width := by
    rw [UInt32.toNat_ofNat_of_lt' hlt, Nat.pow_zero, Nat.div_one]
  refine eq_of_wordByte_eq fun k => ?_
  rw [wordByte_value_set, wordByte_of_window hcut]
  split
  · next hk =>
    rw [if_pos ⟨rfl, Nat.le_add_right .., by omega⟩, Nat.add_sub_cancel_left, Nat.zero_add]
  · rfl

/-- Writing what a register shows changes nothing. -/
theorem set_value (file : RegisterFile) (reg : Reg) : file.set reg (file.value reg) = file := by
  refine ext_wordByte fun i k => ?_
  rw [wordByte_slot_set]
  split
  · next h =>
    obtain ⟨rfl, hlow, hhigh⟩ := h
    rw [value, View.wordByte_read, if_pos (by omega), Nat.add_sub_cancel' hlow]
  · rfl

/-- The last of two writes to the same view stays. -/
theorem set_set (hslot : other.slot = reg.slot) (hview : other.view = reg.view) :
    (file.set reg word).set other word' = file.set other word' := by
  refine ext_wordByte fun i k => ?_
  rw [wordByte_slot_set, wordByte_slot_set, wordByte_slot_set, hslot, hview]
  split <;> simp_all

/-- Writes to registers that share no byte can change places. -/
theorem set_comm (h : ¬reg.Overlaps other) :
    (file.set reg word).set other word' = (file.set other word').set reg word := by
  refine ext_wordByte fun i k => ?_
  simp only [wordByte_slot_set]
  by_cases hreg : i = reg.slot ∧ reg.view.Covers k
  · have hother : ¬(i = other.slot ∧ other.view.Covers k) := fun hother =>
      h ⟨hreg.1.symm.trans hother.1, k, hreg.2.2.trans_le reg.view.offset_add_width_le,
        hreg.2, hother.2⟩
    rw [if_neg hother, if_pos hreg, if_pos hreg]
  · rw [if_neg hreg, if_neg hreg]

/-- A write to a register and a read of any register, for all encodings: the slot is in the low
four bits and the view in the two above.  Every byte that is shown comes from the value, counted
from its lowest byte, if it was written, and from the old slot otherwise.  So a register shows
what was put into it, cut off to its width; a register that is written back changes nothing; the
last of two writes to one view stays; and writes that share no byte can change places. -/
theorem set_lens (file : RegisterFile) (reg other : Reg) (word : UInt32) :
    (reg.slot.val = (reg.encoding &&& 0x0f).toNat ∧
      reg.view.code = reg.encoding >>> 4 &&& 0x03) ∧
    (∀ k, wordByte ((file.set reg word).value other) k =
      if k < other.view.width then
        if other.slot = reg.slot ∧ reg.view.Covers (other.view.offset + k) then
          wordByte word (other.view.offset + k - reg.view.offset)
        else wordByte (file.slot other.slot) (other.view.offset + k)
      else 0) ∧
    (∀ i, i ≠ reg.slot → (file.set reg word).slot i = file.slot i) ∧
    (file.set reg word).value reg = UInt32.ofNat (word.toNat % 256 ^ reg.view.width) ∧
    file.set reg (file.value reg) = file ∧
    (other.slot = reg.slot → other.view = reg.view →
      ∀ word', (file.set reg word).set other word' = file.set other word') ∧
    (¬reg.Overlaps other →
      ∀ word', (file.set reg word).set other word' =
        (file.set other word').set reg word) := by
  refine ⟨⟨reg.slot_val, reg.code_view⟩, wordByte_value_set file reg other word, fun i hi => ?_,
    value_set_same file reg word, set_value file reg, fun hslot hview word' => ?_,
    fun hdisjoint word' => ?_⟩
  · rw [set, slot_setSlot_of_ne _ _ hi.symm]
  · exact set_set hslot hview
  · exact set_comm hdisjoint

/-- Two encodings of `al`, and `ah` beside it.  The two high bits of an encoding do not matter. -/
theorem set_lens_bytes :
    let file := zero.set .eax 0x44332211
    let file' := file.set .ah 0xaabbccdd
    file'.value .ax = 0xdd11 ∧ file'.value .eax = 0x4433dd11 ∧
      (file'.set .al 5).set ⟨0xd0⟩ 6 = file'.set ⟨0xd0⟩ 6 ∧
      file'.set .al 5 = (file.set .al 5).set .ah 0xaabbccdd := by
  intro file file'
  obtain ⟨-, -, -, -, -, hlast, -⟩ := set_lens file' .al ⟨0xd0⟩ 5
  obtain ⟨-, -, -, -, -, -, hcomm⟩ := set_lens file .ah .al 0xaabbccdd
  exact ⟨by decide, by decide, hlast (by decide) (by decide) 6, hcomm (by decide) 5⟩

end RegisterFile

end X86Listing
