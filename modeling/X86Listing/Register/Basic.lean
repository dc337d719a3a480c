/-!
# Registers

The register file has sixteen slots of 32 bits.  A register is a view of one
slot: all of it, its low byte, its second byte, or its low half.  A register is
encoded in one byte, the view in bits 4 and 5 and the slot in the low four.

* `View` is the part of a slot that a register names, with `View.read` and
  `View.write`.
* `Reg` is an encoded register, with `Reg.slot`, `Reg.view` and `Reg.name`.
  Every byte is an encoding; `Reg.ofEncoding?` accepts those whose two high bits
  are clear.
* `Reg.spellings` lists the twenty registers that a listing can name.
-/

namespace X86Listing

/-! ## Views -/

/-- The part of a 32-bit slot that a register names. -/
inductive View where
  /-- All four bytes, as in `eax`. -/
  | full32
  /-- The lowest byte, as in `al`. -/
  | low8
  /-- The second byte, as in `ah`. -/
  | high8
  /-- The two low bytes, as in `ax`. -/
  | low16
deriving DecidableEq, Repr, Inhabited

namespace View

/-- The two-bit code of a view. -/
def code : View → UInt8
  | full32 => 0
  | low8 => 1
  | high8 => 2
  | low16 => 3

/-- The view with a two-bit code. -/
def ofCode (code : Nat) : View :=
  match code % 4 with
  | 0 => full32
  | 1 => low8
  | 2 => high8
  | _ => low16

/-- The name of a view. -/
def name : View → String
  | full32 => "full32"
  | low8 => "low8"
  | high8 => "high8"
  | low16 => "low16"

/-- The view of a name. -/
def ofName? : String → Option View
  | "full32" => some full32
  | "low8" => some low8
  | "high8" => some high8
  | "low16" => some low16
  | _ => none

/-- The part of a slot's word that a view shows. -/
def read (view : View) (word : UInt32) : UInt32 :=
  match view with
  | full32 => word
  | low8 => word &&& 0xff
  | high8 => (word >>> 8) &&& 0xff
  | low16 => word &&& 0xffff

/-- A slot's word after a write through a view.  The bytes outside the view stay,
and the bits of the value that do not fit the view are dropped. -/
def write (view : View) (word value : UInt32) : UInt32 :=
  match view with
  | full32 => value
  | low8 => (word &&& 0xffffff00) ||| (value &&& 0xff)
  | high8 => (word &&& 0xffff00ff) ||| (value &&& 0xff) <<< (8 : UInt32)
  | low16 => (word &&& 0xffff0000) ||| (value &&& 0xffff)

@[simp]
theorem ofName?_name (view : View) : ofName? view.name = some view := by
  cases view <;> rfl

end View

/-! ## Registers -/

/-- A register, encoded as a view and a slot. -/
structure Reg where
  /-- The view in bits 4 and 5, the slot in bits 0 to 3. -/
  encoding : UInt8
deriving DecidableEq, Repr, Inhabited

namespace Reg

/-- The slot that a register is a view of. -/
def slot (reg : Reg) : Fin 16 :=
  ⟨reg.encoding.toNat % 16, Nat.mod_lt _ (by decide)⟩

/-- The part of the slot that a register names. -/
def view (reg : Reg) : View :=
  View.ofCode (reg.encoding.toNat / 16)

/-- The register with an encoding, unless one of the two high bits is set. -/
def ofEncoding? (encoding : UInt8) : Option Reg :=
  if encoding < 0x40 then some ⟨encoding⟩ else none

/-- The view of a slot, if there is such a slot. -/
def ofParts? (view : View) (slot : UInt8) : Option Reg :=
  if slot < 16 then some ⟨(view.code <<< 4) ||| slot⟩ else none

/-! ### Registers by name -/

def eax : Reg := ⟨0x00⟩
def ebx : Reg := ⟨0x01⟩
def ecx : Reg := ⟨0x02⟩
def edx : Reg := ⟨0x03⟩
def esp : Reg := ⟨0x04⟩
def ebp : Reg := ⟨0x05⟩
def esi : Reg := ⟨0x06⟩
def edi : Reg := ⟨0x07⟩
def eflags : Reg := ⟨0x0f⟩
def al : Reg := ⟨0x10⟩
def bl : Reg := ⟨0x11⟩
def cl : Reg := ⟨0x12⟩
def dl : Reg := ⟨0x13⟩
def ah : Reg := ⟨0x20⟩
def bh : Reg := ⟨0x21⟩
def ch : Reg := ⟨0x22⟩
def dh : Reg := ⟨0x23⟩
def ax : Reg := ⟨0x30⟩
def bx : Reg := ⟨0x31⟩
def cx : Reg := ⟨0x32⟩
def dx : Reg := ⟨0x33⟩

/-- The registers that a listing can name, in the order of their names. -/
def spellings : Array (String × Reg) :=
  #[("ah", ah), ("al", al), ("ax", ax), ("bh", bh), ("bl", bl), ("bx", bx), ("ch", ch),
    ("cl", cl), ("cx", cx), ("dh", dh), ("dl", dl), ("dx", dx), ("eax", eax), ("ebp", ebp),
    ("ebx", ebx), ("ecx", ecx), ("edi", edi), ("edx", edx), ("esi", esi), ("esp", esp)]

/-- The name of a register in a listing.  Registers that no listing can name,
such as the segment registers and the low byte of `esp`, show as `unk`. -/
def name (reg : Reg) : String :=
  match spellings.toList.find? fun entry => entry.2 = reg with
  | some (name, _) => name
  | none => "unk"

/-- Can a listing name the register? -/
def IsSpelled (reg : Reg) : Prop :=
  ∃ name, (name, reg) ∈ spellings

instance : ToString Reg := ⟨name⟩

end Reg

end X86Listing
