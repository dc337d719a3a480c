import X86Listing.Machine.Config
import X86Listing.Memory.Stack
import X86Listing.Procedure.Store
import X86Listing.Register.File

/-!
# The machine

A machine is a register file, a stack, a data segment, the procedures compiled so
far, and the host functions that compiled code can call.  `Host` says what host
functions are made of: they stay abstract here, and with them a state of their
own that they may read and change.

`Eval` is a computation on a machine that can end in a fault.  A fault leaves the
machine in the state that it had reached.  Each operation of this module either
succeeds or leaves the machine as it was.

* `push`, `pop` and `arg` work on the stack, whose top is `esp`.
* `loadWord`, `loadByte`, `storeWord` and `storeByte` work on the data segment and
  the stack; code cannot be read.
* `compile` adds a procedure, and `setFunction` a host function.
-/

namespace X86Listing

/-- What host functions are made of. -/
structure Host where
  /-- The host functions. -/
  Function : Type
  /-- The state that host functions share beside the machine. -/
  State : Type

/-- A machine with its memory, its code and its host functions. -/
structure Machine (H : Host) where
  config : Config
  registers : RegisterFile
  stack : Stack
  data : DataSegment
  procedures : ProcedureStore
  functions : NameMap H.Function
  host : H.State

/-- A computation on a machine that can end in a fault. -/
abbrev Eval (H : Host) := EStateM Fault (Machine H)

namespace Machine

variable {H : Host}

/-! ## Making a machine -/

/-- A machine of given sizes, with an empty stack and nothing compiled. -/
def build (config : Config) (host : H.State) : Machine H :=
  let stack := Stack.new config.stackWords stackBase
  { config, stack, host
    registers := RegisterFile.zero.setEsp stack.limit
    data := .new config.dataSize
    procedures := .empty
    functions := .empty }

/-- A machine of given sizes, if they fit the address map. -/
def new (config : Config) (host : H.State) : Except ConfigError (Machine H) := do
  config.validate
  return build config host

/-- A machine of the standard sizes. -/
def standard (host : H.State) : Machine H :=
  build .standard host

/-! ## Registers -/

/-- The value of a register. -/
def readRegister (reg : Reg) : Eval H UInt32 :=
  return (← get).registers.value reg

/-- Changes the registers. -/
def modifyRegisters (f : RegisterFile → RegisterFile) : Eval H Unit :=
  modify fun machine => { machine with registers := f machine.registers }

/-- Puts a value into a register. -/
def writeRegister (reg : Reg) (value : UInt32) : Eval H Unit :=
  modifyRegisters fun file => file.set reg value

/-- Zeroes the registers and the stack and empties the stack.  The data segment
and the procedures stay. -/
def reset : Eval H Unit :=
  modify fun machine =>
    { machine with
      registers := RegisterFile.zero.setEsp machine.stack.limit
      stack := machine.stack.cleared }

/-! ## The stack -/

/-- Pushes a word. -/
def push (word : UInt32) : Eval H Unit := do
  let machine ← get
  match machine.stack.push machine.registers.esp word with
  | .error fault => throw fault
  | .ok (stack, esp) =>
    set { machine with stack, registers := machine.registers.setEsp esp }

/-- Pops a word. -/
def pop : Eval H UInt32 := do
  let machine ← get
  match machine.stack.pop machine.registers.esp with
  | .error fault => throw fault
  | .ok (word, esp) =>
    set { machine with registers := machine.registers.setEsp esp }
    return word

/-- The word that is `depth` slots above the stack top.  For a host function, slot
zero is the last word pushed before the call. -/
def arg (depth : Nat) : Eval H UInt32 := do
  let machine ← get
  match machine.stack.top machine.registers.esp depth with
  | .error fault => throw fault
  | .ok word => return word

/-! ## Memory -/

/-- The word at an address, in the data segment or the stack. -/
def wordAt? (machine : Machine H) (address : UInt32) : Option UInt32 :=
  (machine.data.loadWord? address).or (machine.stack.region.loadWord? address)

/-- The byte at an address, in the data segment or the stack. -/
def byteAt? (machine : Machine H) (address : UInt32) : Option UInt8 :=
  (machine.data.loadByte? address).or (machine.stack.region.loadByte? address)

/-- The machine after a word is stored at an address. -/
def storeWord? (machine : Machine H) (address : UInt32) (value : UInt32) :
    Option (Machine H) :=
  match machine.data.storeWord? address value with
  | some data => some { machine with data }
  | none =>
    (machine.stack.region.storeWord? address value).map fun region =>
      { machine with stack := ⟨region⟩ }

/-- The machine after a byte is stored at an address. -/
def storeByte? (machine : Machine H) (address : UInt32) (value : UInt8) :
    Option (Machine H) :=
  match machine.data.storeByte? address value with
  | some data => some { machine with data }
  | none =>
    (machine.stack.region.storeByte? address value).map fun region =>
      { machine with stack := ⟨region⟩ }

/-- Loads the word at an address. -/
def loadWord (address : UInt32) : Eval H UInt32 := do
  match (← get).wordAt? address with
  | some word => return word
  | none => throw (.badAddress address 4)

/-- Loads the byte at an address. -/
def loadByte (address : UInt32) : Eval H UInt8 := do
  match (← get).byteAt? address with
  | some byte => return byte
  | none => throw (.badAddress address 1)

/-- Stores a word at an address. -/
def storeWord (address value : UInt32) : Eval H Unit := do
  match (← get).storeWord? address value with
  | some machine => set machine
  | none => throw (.badAddress address 4)

/-- Stores a byte at an address. -/
def storeByte (address : UInt32) (value : UInt8) : Eval H Unit := do
  match (← get).storeByte? address value with
  | some machine => set machine
  | none => throw (.badAddress address 1)

/-- The bytes from an address of the data segment up to the next zero. -/
def readString (address : UInt32) : Eval H (List UInt8) := do
  match (← get).data.string? address with
  | some bytes => return bytes
  | none => throw (.badAddress address 1)

/-! ## Procedures and host functions -/

/-- Compiles the procedure of a listing, and its data into the data segment. -/
def compile (source : String) : EStateM CompileError (Machine H) Procedure := fun machine =>
  match ProcedureStore.compile source (machine.procedures, machine.data) with
  | .ok procedure (procedures, data) => .ok procedure { machine with procedures, data }
  | .error e (procedures, data) => .error e { machine with procedures, data }

/-- The machine with a host function put under a name, or with none there. -/
def setFunction (machine : Machine H) (name : String) (function : Option H.Function) :
    Machine H :=
  match function with
  | some function => { machine with functions := machine.functions.insert name function }
  | none => { machine with functions := machine.functions.erase name }

end Machine

end X86Listing
