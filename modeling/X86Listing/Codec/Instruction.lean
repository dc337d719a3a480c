import X86Listing.Codec.Variant
import X86Listing.Instruction.Mnemonic

/-!
# Instructions as JSON

An instruction is an object whose member `shape` is the tag of the instruction,
which names the shape of its operand list; the other members are the operation
and the operands.  Registers are their encodings.  Members without a meaning are
passed over.  An array is read as well, with the tag first and the fields behind
it in their order.

Each operation and each operand has its `toJson` and its `ofJson?`, and reading
gives back what was written, as in `PairOp.ofJson?_toJson`.
-/

namespace X86Listing

open Json (variant? fields? string)

/-! ## Operations -/

namespace Condition

/-- The name of a condition. -/
def name : Condition → String
  | always => "always"
  | zero => "zero"
  | notZero => "not_zero"
  | notBelow => "not_below"
  | belowOrEqual => "below_or_equal"
  | above => "above"

/-- The condition of a name. -/
def ofName? : String → Option Condition
  | "always" => some always
  | "zero" => some zero
  | "not_zero" => some notZero
  | "not_below" => some notBelow
  | "below_or_equal" => some belowOrEqual
  | "above" => some above
  | _ => none

/-- A condition as JSON. -/
def toJson (condition : Condition) : Json :=
  string condition.name

/-- The condition of a JSON value. -/
def ofJson? (json : Json) : Option Condition :=
  (variant? true json).bind ofName?

@[simp]
theorem ofJson?_toJson (condition : Condition) : ofJson? condition.toJson = some condition := by
  cases condition <;> rfl

end Condition

namespace RegOp

/-- An operation as JSON. -/
def toJson : RegOp → Json
  | jump condition => .object [("jump", condition.toJson)]
  | op => string op.mnemonic

/-- The operation of a name. -/
def ofName? : String → Option RegOp
  | "push" => some push
  | "pop" => some pop
  | "not" => some not
  | "inc" => some inc
  | "dec" => some dec
  | _ => none

/-- The operation of a JSON value. -/
def ofJson? (json : Json) : Option RegOp :=
  match json with
  | .object [("jump", condition)] => (Condition.ofJson? condition).map jump
  | _ => (variant? true json).bind ofName?

@[simp]
theorem ofJson?_toJson (op : RegOp) : ofJson? op.toJson = some op := by
  cases op <;> simp [toJson, ofJson?, mnemonic, ofName?]

end RegOp

namespace ImmOp

/-- An operation as JSON. -/
def toJson : ImmOp → Json
  | jump condition => .object [("jump", condition.toJson)]
  | push => string "push"

/-- The operation of a name. -/
def ofName? : String → Option ImmOp
  | "push" => some push
  | _ => none

/-- The operation of a JSON value. -/
def ofJson? (json : Json) : Option ImmOp :=
  match json with
  | .object [("jump", condition)] => (Condition.ofJson? condition).map jump
  | _ => (variant? true json).bind ofName?

@[simp]
theorem ofJson?_toJson (op : ImmOp) : ofJson? op.toJson = some op := by
  cases op <;> simp [toJson, ofJson?, ofName?]

end ImmOp

namespace PairOp

/-- The operation of a name. -/
def ofName? : String → Option PairOp
  | "add" => some add
  | "and" => some and
  | "cmp" => some cmp
  | "mov" => some mov
  | "movzx" => some movzx
  | "or" => some or
  | "sar" => some sar
  | "shl" => some shl
  | "shr" => some shr
  | "sub" => some sub
  | "xor" => some xor
  | _ => none

/-- An operation as JSON. -/
def toJson (op : PairOp) : Json :=
  string op.mnemonic

/-- The operation of a JSON value. -/
def ofJson? (json : Json) : Option PairOp :=
  (variant? true json).bind ofName?

@[simp]
theorem ofJson?_toJson (op : PairOp) : ofJson? op.toJson = some op := by
  cases op <;> rfl

end PairOp

namespace LoadOp

/-- The operation of a name. -/
def ofName? : String → Option LoadOp
  | "add" => some add
  | "and" => some and
  | "cmp" => some cmp
  | "imul" => some imul
  | "mov" => some mov
  | "or" => some or
  | "sub" => some sub
  | "xor" => some xor
  | _ => none

/-- An operation as JSON. -/
def toJson (op : LoadOp) : Json :=
  string op.mnemonic

/-- The operation of a JSON value. -/
def ofJson? (json : Json) : Option LoadOp :=
  (variant? true json).bind ofName?

@[simp]
theorem ofJson?_toJson (op : LoadOp) : ofJson? op.toJson = some op := by
  cases op <;> rfl

end LoadOp

namespace WideOp

/-- The operation of a name. -/
def ofName? : String → Option WideOp
  | "div" => some div
  | "mul" => some mul
  | _ => none

/-- An operation as JSON. -/
def toJson (op : WideOp) : Json :=
  string op.mnemonic

/-- The operation of a JSON value. -/
def ofJson? (json : Json) : Option WideOp :=
  (variant? true json).bind ofName?

@[simp]
theorem ofJson?_toJson (op : WideOp) : ofJson? op.toJson = some op := by
  cases op <;> rfl

end WideOp

namespace StoreOp

/-- The operation of a name. -/
def ofName? : String → Option StoreOp
  | "cmp" => some cmp
  | "mov" => some mov
  | _ => none

/-- An operation as JSON. -/
def toJson (op : StoreOp) : Json :=
  string op.mnemonic

/-- The operation of a JSON value. -/
def ofJson? (json : Json) : Option StoreOp :=
  (variant? true json).bind ofName?

@[simp]
theorem ofJson?_toJson (op : StoreOp) : ofJson? op.toJson = some op := by
  cases op <;> rfl

end StoreOp

namespace IndexOp

/-- A sign as JSON. -/
def toJson : IndexOp → Json
  | add => string "add"
  | mul => string "mul"

/-- The sign of a name. -/
def ofName? : String → Option IndexOp
  | "add" => some add
  | "mul" => some mul
  | _ => none

/-- The sign of a JSON value. -/
def ofJson? (json : Json) : Option IndexOp :=
  (variant? true json).bind ofName?

@[simp]
theorem ofJson?_toJson (op : IndexOp) : ofJson? op.toJson = some op := by
  cases op <;> rfl

end IndexOp

/-! ## Operands -/

namespace Reg

/-- A register as JSON. -/
def toJson (reg : Reg) : Json :=
  .ofUInt8 reg.encoding

/-- The register of a JSON value.  Every byte is one. -/
def ofJson? (json : Json) : Option Reg :=
  json.uint8?.map Reg.mk

@[simp]
theorem ofJson?_toJson (reg : Reg) : ofJson? reg.toJson = some reg := by
  simp [toJson, ofJson?]

end Reg

namespace MemoryOperand

/-- A memory operand as JSON. -/
def toJson (mem : MemoryOperand) : Json :=
  .object [("base", mem.base.toJson), ("disp", .ofUInt32 mem.disp)]

/-- The memory operand of a JSON value. -/
def ofJson? (json : Json) : Option MemoryOperand := do
  match ← fields? ["base", "disp"] json with
  | [base, disp] => return ⟨← Reg.ofJson? base, ← disp.uint32?⟩
  | _ => none

@[simp]
theorem ofJson?_toJson (mem : MemoryOperand) : ofJson? mem.toJson = some mem := by
  simp [toJson, ofJson?, fields?, List.lookup_cons]

end MemoryOperand

/-- The value names exactly one operation. -/
def Json.isVariant (name : String) (json : Json) : Bool :=
  variant? true json == some name

/-! ## Instructions -/

namespace Instruction

/-- The name under which an instruction is written.  It is the name of its shape,
except for the one instruction without operands. -/
def tag : Instruction → String
  | retn => "retn"
  | instruction => instruction.shape.name

/-- An instruction as JSON. -/
def toJson (instruction : Instruction) : Json :=
  .object (("shape", string instruction.tag) :: match instruction with
    | retn => []
    | call target => [("target", string target)]
    | reg op r0 => [("op", op.toJson), ("r0", r0.toJson)]
    | imm op v0 => [("op", op.toJson), ("v0", .ofUInt32 v0)]
    | regReg op r0 r1 => [("op", op.toJson), ("r0", r0.toJson), ("r1", r1.toJson)]
    | shrd r0 r1 r2 =>
      [("op", string "shrd"), ("r0", r0.toJson), ("r1", r1.toJson), ("r2", r2.toJson)]
    | regImm op r0 v0 => [("op", op.toJson), ("r0", r0.toJson), ("v0", .ofUInt32 v0)]
    | regMem op r0 operand => [("op", op.toJson), ("r0", r0.toJson), ("mem", operand.toJson)]
    | lea r0 r1 r2 index v0 =>
      [("op", string "lea"), ("r0", r0.toJson), ("r1", r1.toJson), ("r2", r2.toJson),
        ("index", index.toJson), ("v0", .ofUInt32 v0)]
    | jumpTable condition v0 r0 v1 =>
      [("cond", condition.toJson), ("v0", .ofUInt32 v0), ("r0", r0.toJson),
        ("v1", .ofUInt32 v1)]
    | mem op operand => [("op", op.toJson), ("mem", operand.toJson)]
    | memReg op operand r1 => [("op", op.toJson), ("mem", operand.toJson), ("r1", r1.toJson)]
    | memImm op operand v1 =>
      [("op", op.toJson), ("mem", operand.toJson), ("v1", .ofUInt32 v1)])

/-- The names of the fields behind a tag, in their order. -/
def fieldNames : String → Option (List String)
  | "retn" => some []
  | "call" => some ["target"]
  | "reg" => some ["op", "r0"]
  | "imm" => some ["op", "v0"]
  | "reg_reg" => some ["op", "r0", "r1"]
  | "reg_reg_reg" => some ["op", "r0", "r1", "r2"]
  | "reg_imm" => some ["op", "r0", "v0"]
  | "reg_mem" => some ["op", "r0", "mem"]
  | "lea" => some ["op", "r0", "r1", "r2", "index", "v0"]
  | "jump_table" => some ["cond", "v0", "r0", "v1"]
  | "mem" => some ["op", "mem"]
  | "mem_reg" => some ["op", "mem", "r1"]
  | "mem_imm" => some ["op", "mem", "v1"]
  | _ => none

/-- The instruction of a tag with the values of its fields. -/
def ofFields? (tag : String) (fields : List Json) : Option Instruction :=
  match tag, fields with
  | "retn", [] => some retn
  | "call", [target] => return call (← target.string?)
  | "reg", [op, r0] => return reg (← RegOp.ofJson? op) (← Reg.ofJson? r0)
  | "imm", [op, v0] => return imm (← ImmOp.ofJson? op) (← v0.uint32?)
  | "reg_reg", [op, r0, r1] =>
    return regReg (← PairOp.ofJson? op) (← Reg.ofJson? r0) (← Reg.ofJson? r1)
  | "reg_reg_reg", [op, r0, r1, r2] =>
    if op.isVariant "shrd" then
      return shrd (← Reg.ofJson? r0) (← Reg.ofJson? r1) (← Reg.ofJson? r2)
    else none
  | "reg_imm", [op, r0, v0] =>
    return regImm (← PairOp.ofJson? op) (← Reg.ofJson? r0) (← v0.uint32?)
  | "reg_mem", [op, r0, operand] =>
    return regMem (← LoadOp.ofJson? op) (← Reg.ofJson? r0) (← MemoryOperand.ofJson? operand)
  | "lea", [op, r0, r1, r2, index, v0] =>
    if op.isVariant "lea" then
      return lea (← Reg.ofJson? r0) (← Reg.ofJson? r1) (← Reg.ofJson? r2)
        (← IndexOp.ofJson? index) (← v0.uint32?)
    else none
  | "jump_table", [condition, v0, r0, v1] =>
    return jumpTable (← Condition.ofJson? condition) (← v0.uint32?) (← Reg.ofJson? r0)
      (← v1.uint32?)
  | "mem", [op, operand] => return mem (← WideOp.ofJson? op) (← MemoryOperand.ofJson? operand)
  | "mem_reg", [op, operand, r1] =>
    return memReg (← StoreOp.ofJson? op) (← MemoryOperand.ofJson? operand) (← Reg.ofJson? r1)
  | "mem_imm", [op, operand, v1] =>
    return memImm (← StoreOp.ofJson? op) (← MemoryOperand.ofJson? operand) (← v1.uint32?)
  | _, _ => none

/-- The tag of a value, and the value that holds the fields. -/
def tagged? : Json → Option (String × Json)
  | .object members => do
    let tag ← (← members.lookup "shape").string?
    return (tag, .object members)
  | .array (tag :: items) => do return (← tag.string?, .array items)
  | _ => none

/-- The instruction of a JSON value. -/
def ofJson? (json : Json) : Option Instruction := do
  let (tag, contents) ← tagged? json
  let fields ← fields? (← fieldNames tag) contents
  ofFields? tag fields

end Instruction

end X86Listing
