import X86Listing.Instruction.Basic
import X86Listing.Power

/-!
# Arithmetic of the operations

The operations work on words modulo `2 ^ 32`.  A comparison leaves flags and no
value; every other operation leaves a value and no flags.  Shifts take the five
low bits of their count.

* `PairOp.eval` and `LoadOp.eval` give the effect of an operation on two words,
  and `RegisterFile.apply` puts it into the register file.
* `doubleShift` is the value of `shrd`.
* `multiply` and `divide?` work on the pair `edx:eax`.
-/

namespace X86Listing

/-- What an operation on two words leaves behind. -/
inductive Effect where
  /-- New flags. -/
  | flags (flags : UInt32)
  /-- A value for the destination. -/
  | value (value : UInt32)
deriving DecidableEq, Repr

/-- The register file after an operation with a register as destination. -/
def RegisterFile.apply (file : RegisterFile) (destination : Reg) : Effect → RegisterFile
  | .flags flags => file.setFlags flags
  | .value value => file.set destination value

/-- A word shifted right with its sign bit repeated. -/
def shiftRightSigned (a : UInt32) (count : UInt32) : UInt32 :=
  UInt32.ofBitVec (a.toBitVec.sshiftRight (count.toNat % 32))

/-- The effect of an operation on a register and a register or value. -/
def PairOp.eval (op : PairOp) (a b : UInt32) : Effect :=
  match op with
  | add => .value (a + b)
  | and => .value (a &&& b)
  | cmp => .flags (compareFlags a b)
  | mov => .value b
  | movzx => .value b
  | or => .value (a ||| b)
  | sar => .value (shiftRightSigned a b)
  | shl => .value (a <<< (b &&& 31))
  | shr => .value (a >>> (b &&& 31))
  | sub => .value (a - b)
  | xor => .value (a ^^^ b)

/-- The effect of an operation on a register and a word of memory. -/
def LoadOp.eval (op : LoadOp) (a b : UInt32) : Effect :=
  match op with
  | add => .value (a + b)
  | and => .value (a &&& b)
  | cmp => .flags (compareFlags a b)
  | imul => .value (a * b)
  | mov => .value b
  | or => .value (a ||| b)
  | sub => .value (a - b)
  | xor => .value (a ^^^ b)

/-- The low word of `high:low` shifted right.  A count of zero leaves the low
word as it is. -/
def doubleShift (low high count : UInt32) : UInt32 :=
  let count := count &&& 31
  if count = 0 then low else (low >>> count) ||| (high <<< (32 - count))

/-- The low and the high word of a product. -/
def multiply (a b : UInt32) : UInt32 × UInt32 :=
  let product := a.toNat * b.toNat
  (UInt32.ofNat product, UInt32.ofNat (product / 2 ^ 32))

/-- The quotient and the remainder of `high:low` by a word other than zero.  Of
the quotient the low word is kept. -/
def divide? (high low divisor : UInt32) : Option (UInt32 × UInt32) :=
  if divisor = 0 then none
  else
    let dividend := 2 ^ 32 * high.toNat + low.toNat
    some (UInt32.ofNat (dividend / divisor.toNat), UInt32.ofNat (dividend % divisor.toNat))

/-- The address made of a base, an index and a value. -/
def IndexOp.address (op : IndexOp) (base index value : UInt32) : UInt32 :=
  match op with
  | add => base + index + value
  | mul => base + index * value

end X86Listing
