import X86Listing.Machine.Basic

/-!
# Commands and replies

A session drives a machine by commands, one after another.  A command compiles,
runs or steps procedures, reads or writes registers and memory, or asks for a part
of the machine.  `Command` lists them and `Reply` lists what they answer; a fault
is no reply.

A host function is a list of commands, so a session can register one with the
command `setFunction`.
-/

namespace X86Listing

/-- A command of a session. -/
inductive Command where
  /-- Compile the procedure of a listing. -/
  | compile (source : String)
  /-- Run a compiled procedure, with a budget or without. -/
  | run (name : String) (budget : Option Nat)
  /-- Execute one instruction of a compiled procedure. -/
  | step (name : String) (pc : Nat)
  /-- Execute a compiled procedure step by step, `limit` steps at most. -/
  | trace (name : String) (limit : Nat)
  /-- Run a compiled procedure or call a host function. -/
  | call (name : String)
  | push (word : UInt32)
  | pop
  | arg (depth : UInt32)
  | loadWord (address : UInt32)
  | loadByte (address : UInt32)
  | storeWord (address value : UInt32)
  | storeByte (address : UInt32) (value : UInt8)
  /-- Read the string at an address. -/
  | readString (address : UInt32)
  /-- Read the string whose address is an argument. -/
  | stringArg (depth : UInt32)
  /-- Put the sum of the first two arguments into `eax`. -/
  | sum
  /-- Fail like a host function. -/
  | fail (name message : String)
  /-- Put a value into a register.  Without a register nothing is written. -/
  | writeRegister (reg : Option Reg) (value : UInt32)
  /-- Read a register.  Without a register there is nothing to answer. -/
  | readRegister (reg : Option Reg)
  | setFlags (flags : UInt32)
  | reset
  /-- Register a host function that performs commands, or remove it. -/
  | setFunction (name : String) (commands : Option (List Command))
  /-- Is there a host function of this name? -/
  | hasFunction (name : String)
  /-- List the compiled procedures. -/
  | names
  /-- Remove a compiled procedure. -/
  | remove (name : String)
  /-- Add a procedure that was compiled elsewhere. -/
  | insert (procedure : Procedure)
  /-- Show a compiled procedure. -/
  | procedure (name : String)
  /-- Find the instruction of a compiled procedure at a code address. -/
  | indexOf (name : String) (address : UInt32)
  /-- Show the data segment. -/
  | data
  /-- Declare bytes in the data segment. -/
  | addData (name : String) (bytes : List UInt8) (size : Nat)
  /-- Show the stack. -/
  | stack
  /-- Show the configuration. -/
  | config
  /-- A command that could not be read. -/
  | malformed
deriving Inhabited

/-- A row of a trace. -/
inductive TraceRow where
  /-- The registers after the instruction at an index. -/
  | stepped (pc : Nat) (registers : RegisterFile)
  /-- The fault of the instruction at an index. -/
  | faulted (pc : Nat) (fault : Fault)

/-- What a command answers. -/
inductive Reply where
  /-- There is nothing to answer, or nothing there. -/
  | nothing
  | flag (value : Bool)
  | word (value : UInt32)
  | byte (value : UInt8)
  | number (value : Nat)
  | bytes (value : List UInt8)
  /-- A procedure was compiled, or found compiled. -/
  | compiled (name : String) (length used : Nat)
  /-- A listing was refused. -/
  | compileError (e : CompileError)
  /-- A declaration was refused. -/
  | dataError (e : DataError)
  /-- There is no compiled procedure of the name. -/
  | noProcedure
  | trace (rows : List TraceRow)
  | names (names : List String)
  | procedure (procedure : Procedure)
  | data (data : DataSegment)
  | stack (depth : Nat) (limit : UInt32) (live : List UInt8)
  | config (config : Config) (stackWords capacity : Nat)
  /-- The command could not be read. -/
  | malformed

/-- The host of a session.  A host function is a list of commands, and what they
answer is kept in a log. -/
def scripted : Host where
  Function := List Command
  State := List Reply

end X86Listing
