import X86Listing.Machine.Run
import X86Listing.Session.Command

/-!
# Performing commands

`perform` performs one command on a machine.  The command `call`, and the
instruction of that name, can lead to a host function, which performs its own
commands; `invoke` does that.  Host functions can call each other, so `invoke`
takes a bound on the depth of such calls.

A host function stops at the first fault, which becomes the fault of the call.
Every reply that came before it is in the log, the latest one first, and so a
reply of a nested call stands before the reply of the command that made the call.
-/

namespace X86Listing

/-- A number of instructions that no run needs. -/
def instructionLimit : Nat := 2 ^ 62

/-- A depth of nested calls of host functions that no session needs. -/
def callDepthLimit : Nat := 2 ^ 62

namespace Session

/-- A computation on the machine of a session. -/
abbrev Action := Eval scripted

/-- A host function of a session is performed by an action. -/
abbrev Invoke := List Command → Action Unit

/-- The compiled procedure of a name. -/
def procedure? (name : String) : Action (Option Procedure) :=
  return (← get).procedures.get? name

/-- Works on the compiled procedure of a name, if there is one. -/
def withProcedure (name : String) (f : Procedure → Action Reply) : Action Reply := do
  match ← procedure? name with
  | some procedure => f procedure
  | none => return .noProcedure

/-- The rows of a trace from an index on. -/
def traceFrom (invoke : Invoke) (procedure : Procedure) :
    (limit pc : Nat) → Action (List TraceRow)
  | 0, _ => return []
  | limit + 1, pc => do
    if procedure.length ≤ pc then
      return []
    else
      fun machine =>
        match Machine.step (H := scripted) invoke procedure pc machine with
        | .error fault machine => .ok [.faulted pc fault] machine
        | .ok none machine => .ok [.stepped pc machine.registers] machine
        | .ok (some next) machine =>
          (traceFrom invoke procedure limit next).map
            (fun rows => .stepped pc machine.registers :: rows) machine

/-- Adds the reply of a host function's command to the log. -/
def log (reply : Reply) : Action Unit :=
  modify fun machine => { machine with host := reply :: machine.host }

/-- Performs a command. -/
def perform (invoke : Invoke) (command : Command) : Action Reply := do
  match command with
  | .compile source => fun machine =>
    match Machine.compile source machine with
    | .error e machine => .ok (.compileError e) machine
    | .ok procedure machine =>
      .ok (.compiled procedure.name procedure.length machine.data.used) machine
  | .run name none => withProcedure name fun procedure => do
    Machine.run invoke instructionLimit procedure
    return .nothing
  | .run name (some budget) => withProcedure name fun procedure =>
    return .number (← Machine.runWithBudget invoke procedure budget)
  | .step name pc => withProcedure name fun procedure => do
    match ← Machine.step invoke procedure pc with
    | some next => return .number next
    | none => return .nothing
  | .trace name limit => withProcedure name fun procedure => do
    Machine.push returnSentinel
    return .trace (← traceFrom invoke procedure limit 0)
  | .call name =>
    Machine.call invoke instructionLimit name
    return .nothing
  | .push word =>
    Machine.push word
    return .nothing
  | .pop => return .word (← Machine.pop)
  | .arg depth => return .word (← Machine.arg depth.toNat)
  | .loadWord address => return .word (← Machine.loadWord address)
  | .loadByte address => return .byte (← Machine.loadByte address)
  | .storeWord address value =>
    Machine.storeWord address value
    return .nothing
  | .storeByte address value =>
    Machine.storeByte address value
    return .nothing
  | .readString address => return .bytes (← Machine.readString address)
  | .stringArg depth => return .bytes (← Machine.readString (← Machine.arg depth.toNat))
  | .sum =>
    let sum := (← Machine.arg 0) + (← Machine.arg 1)
    Machine.writeRegister .eax sum
    return .word sum
  | .fail name message => throw (.host name message)
  | .writeRegister none _ => return .nothing
  | .writeRegister (some reg) value =>
    Machine.writeRegister reg value
    return .nothing
  | .readRegister none => return .nothing
  | .readRegister (some reg) => return .word (← Machine.readRegister reg)
  | .setFlags flags =>
    Machine.modifyRegisters fun file => file.setFlags flags
    return .nothing
  | .reset =>
    Machine.reset
    return .nothing
  | .setFunction name commands =>
    let machine ← get
    set (machine.setFunction name commands)
    return .flag (machine.functions.contains name)
  | .hasFunction name => return .flag ((← get).functions.contains name)
  | .names => return .names (← get).procedures.names
  | .remove name =>
    let machine ← get
    set { machine with procedures := machine.procedures.erase name }
    return .flag (machine.procedures.get? name).isSome
  | .insert procedure =>
    let machine ← get
    set { machine with procedures := machine.procedures.insert procedure }
    return .flag (machine.procedures.get? procedure.name).isSome
  | .procedure name =>
    match ← procedure? name with
    | some procedure => return .procedure procedure
    | none => return .nothing
  | .indexOf name address =>
    match (← procedure? name).bind fun procedure => procedure.indexOf? address with
    | some index => return .number index
    | none => return .nothing
  | .data => return .data (← get).data
  | .addData name bytes size =>
    let machine ← get
    match machine.data.add name bytes size with
    | .error e => return .dataError e
    | .ok data =>
      set { machine with data }
      return .nothing
  | .stack =>
    let machine ← get
    let esp := machine.registers.esp
    return .stack (machine.stack.depth esp) machine.stack.limit (machine.stack.live esp)
  | .config =>
    let machine ← get
    return .config machine.config machine.stack.words machine.data.capacity
  | .malformed => return .malformed

/-- Performs the commands of a host function and logs their replies. -/
def invoke : (depth : Nat) → Invoke
  | 0, _ => throw (.host "" "calls nested too deeply")
  | depth + 1, commands =>
    commands.forM fun command => do
      let reply ← perform (invoke depth) command
      log reply

/-- What a command of a session leads to. -/
structure Outcome where
  /-- The reply, or the fault that came instead. -/
  reply : Except Fault Reply
  /-- The registers afterwards. -/
  registers : RegisterFile
  /-- The replies of the host functions that were called, in order. -/
  log : List Reply

/-- Performs a command of a session and empties the log. -/
def exec (machine : Machine scripted) (command : Command) : Outcome × Machine scripted :=
  match perform (invoke callDepthLimit) command machine with
  | .ok reply machine =>
    (⟨.ok reply, machine.registers, machine.host.reverse⟩, { machine with host := [] })
  | .error fault machine =>
    (⟨.error fault, machine.registers, machine.host.reverse⟩, { machine with host := [] })

/-- Performs commands in turn, each on the machine as the one before left it. -/
def execAll (machine : Machine scripted) : List Command → List Outcome × Machine scripted
  | [] => ([], machine)
  | command :: rest =>
    let (outcome, machine) := exec machine command
    let (outcomes, machine) := execAll machine rest
    (outcome :: outcomes, machine)

end Session

end X86Listing
