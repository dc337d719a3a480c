import X86Listing.Proofs.Machine.FlatMemory
import X86Listing.Proofs.Register.File

/-!
# Frames

A caller pushes the arguments, and the return address goes on top of them.  A procedure with
a frame saves `ebp` and makes it point to the place where it was saved, so it finds the
arguments from `[ebp+8]` on, while the stack top moves.  The host finds the same words with
`arg`, before the call.

* `arg_eq_ok_iff` and `arg_eq_error_iff` say what `arg` answers.
* `framed` is the machine behind the two instructions that enter a frame, and
  `steps_leaveFrame` is the way back.
* `entered` is what the body of a procedure sees when it was called: the words of the caller
  (`loadWord?_entered`), the return address and the saved register below them.
* `wordAt?_entered` is the view of the arguments from inside the frame.
-/

namespace X86Listing.Machine

open RegisterFile

variable {H : Host} {invoke : H.Function → Eval H Unit} {procedure : Procedure} {pc : Nat}
  {machine : Machine H}

/-! ## Arguments -/

theorem arg_eq (depth : Nat) (machine : Machine H) :
    arg depth machine = match machine.stack.top machine.registers.esp depth with
      | .error fault => .error fault machine
      | .ok word => .ok word machine := by
  simp only [arg, bind, EStateM.bind, get_eq_ok]
  cases machine.stack.top machine.registers.esp depth <;> rfl

theorem arg_eq_ok_iff {depth : Nat} {word : UInt32} :
    arg depth machine = .ok word machine ↔
      machine.stack.top machine.registers.esp depth = .ok word := by
  rw [arg_eq]
  cases machine.stack.top machine.registers.esp depth <;> simp

theorem arg_eq_error_iff {depth : Nat} {fault : Fault} :
    arg depth machine = .error fault machine ↔
      machine.stack.top machine.registers.esp depth = .error fault := by
  rw [arg_eq]
  cases machine.stack.top machine.registers.esp depth <;> simp

/-! ## A frame -/

/-- The machine after `push ebp` and `mov ebp, esp`. -/
def framed (machine : Machine H) : Machine H :=
  { machine.pushed (machine.registers.value .ebp) with
    registers := (machine.pushed (machine.registers.value .ebp)).registers.set .ebp
      (machine.registers.esp - 4) }

theorem steps_enterFrame (hpush : procedure.instruction? pc = some (.reg .push .ebp))
    (hmov : procedure.instruction? (pc + 1) = some (.regReg .mov .ebp .esp))
    (hpc : pc + 1 < procedure.length)
    (hlow : machine.stack.base.toNat + 4 ≤ machine.registers.esp.toNat)
    (hhigh : machine.registers.esp.toNat ≤
      machine.stack.base.toNat + machine.stack.region.size) :
    Steps invoke procedure 2 (some pc) machine (some (pc + 2)) machine.framed := by
  have hesp : (machine.pushed (machine.registers.value .ebp)).registers.value .esp =
      machine.registers.esp - 4 := esp_setEsp
  refine .cons (Nat.lt_of_succ_lt hpc) (step_push hpush hlow hhigh)
    (.cons hpc ?_ (.refl ..))
  rw [step_regReg hmov, hesp]
  rfl

/-- `pop ebp` and `retn` find what was there when the frame was entered. -/
theorem steps_leaveFrame {saved : UInt32}
    (hpop : procedure.instruction? pc = some (.reg .pop .ebp))
    (hretn : procedure.instruction? (pc + 1) = some .retn) (hpc : pc + 1 < procedure.length)
    (hsaved : machine.stack.region.loadWord? machine.registers.esp = some saved)
    (hreturn : machine.stack.region.loadWord? (machine.registers.esp + 4) =
      some returnSentinel) :
    Steps invoke procedure 2 (some pc) machine none { machine with
      registers := (machine.popped.registers.set .ebp saved).setEsp
        (machine.registers.esp + 4 + 4) } := by
  have hesp : (machine.popped.registers.set .ebp saved).esp = machine.registers.esp + 4 := by
    rw [esp_set (by decide)]
    exact esp_setEsp
  have hload : machine.stack.region.loadWord? (machine.popped.registers.set .ebp saved).esp =
      some returnSentinel := by
    rw [hesp]
    exact hreturn
  refine .cons (Nat.lt_of_succ_lt hpc) (step_pop hpop hsaved) (.cons hpc ?_ (.refl ..))
  rw [← hesp]
  exact step_retn hretn hload

/-! ## The machine in a frame -/

/-- The machine that the body of a procedure with a frame sees, when it was called. -/
def entered (machine : Machine H) : Machine H :=
  (machine.pushed returnSentinel).framed

theorem esp_pushed (machine : Machine H) (word : UInt32) :
    (machine.pushed word).registers.esp = machine.registers.esp - 4 :=
  esp_setEsp

theorem esp_entered (machine : Machine H) :
    machine.entered.registers.esp = machine.registers.esp - 4 - 4 := by
  show (RegisterFile.set _ .ebp _).esp = _
  rw [esp_set (by decide), esp_pushed, esp_pushed]

theorem ebp_entered (machine : Machine H) :
    machine.entered.registers.value .ebp = machine.registers.esp - 4 - 4 := by
  show (RegisterFile.set _ .ebp _).value .ebp = _
  rw [value_set_self rfl, esp_pushed]

/-- The registers when the caller goes on. -/
theorem registers_left (file : RegisterFile) (frame word : UInt32) :
    ((((((file.setEsp (file.esp - 4)).setEsp frame).set .ebp frame).set .eax word).setEsp
      (file.esp - 4)).set .ebp (file.value .ebp)).setEsp file.esp = file.set .eax word := by
  rw [set_eq_setSlot rfl, set_eq_setSlot rfl, set_eq_setSlot rfl, set_eq_setSlot rfl]
  refine ext_slot fun i => ?_
  simp only [setEsp, slot_setSlot]
  by_cases hesp : Reg.esp.slot = i
  · subst hesp
    rw [if_pos rfl, if_neg (by decide)]
    rfl
  by_cases hebp : Reg.ebp.slot = i
  · subst hebp
    rw [if_neg (by decide), if_pos rfl, if_neg (by decide)]
    rfl
  simp only [if_neg hesp, if_neg hebp]

section Room

variable (hlow : machine.stack.base.toNat + 8 ≤ machine.registers.esp.toNat)
include hlow

/-- Behind the return address there is room for one more word. -/
theorem low_pushed (word : UInt32) :
    (machine.pushed word).stack.base.toNat + 4 ≤
      (machine.pushed word).registers.esp.toNat := by
  have hbase : (machine.pushed word).stack.base = machine.stack.base := rfl
  rw [hbase, esp_pushed, toNat_sub_four (by omega)]
  omega

theorem esp_pushed_le (word : UInt32) :
    (machine.pushed word).registers.esp ≤ machine.registers.esp := by
  rw [UInt32.le_iff_toNat_le, esp_pushed, toNat_sub_four (by omega)]
  omega

/-- The return address and the saved register are below the words of the caller. -/
theorem loadWord?_entered {address : UInt32} (haddress : machine.registers.esp ≤ address) :
    machine.entered.stack.region.loadWord? address =
      machine.stack.region.loadWord? address := by
  have hcalled : (machine.pushed returnSentinel).stack.region.loadWord? address =
      machine.stack.region.loadWord? address := loadWord?_pushed (by omega) haddress
  rw [← hcalled]
  apply loadWord?_pushed (low_pushed hlow _)
  exact UInt32.le_trans (esp_pushed_le hlow _) haddress

variable (hhigh : machine.registers.esp.toNat ≤
  machine.stack.base.toNat + machine.stack.region.size)
include hhigh

theorem high_pushed (word : UInt32) :
    (machine.pushed word).registers.esp.toNat ≤
      (machine.pushed word).stack.base.toNat + (machine.pushed word).stack.region.size := by
  have hle := UInt32.le_iff_toNat_le.1 (esp_pushed_le hlow word)
  show _ ≤ machine.stack.base.toNat + machine.stack.region.size
  omega

theorem loadWord?_return :
    machine.entered.stack.region.loadWord? (machine.registers.esp - 4) =
      some returnSentinel := by
  have hcalled : (machine.pushed returnSentinel).stack.region.loadWord?
      (machine.registers.esp - 4) = some returnSentinel :=
    Stack.loadWord?_withWord (by omega) hhigh returnSentinel
  rw [← hcalled]
  apply loadWord?_pushed (low_pushed hlow _)
  rw [esp_pushed]
  exact UInt32.le_refl _

theorem loadWord?_saved :
    machine.entered.stack.region.loadWord? (machine.registers.esp - 4 - 4) =
      some (machine.registers.value .ebp) := by
  have hvalue : (machine.pushed returnSentinel).registers.value .ebp =
      machine.registers.value .ebp := value_setEsp (by decide)
  rw [← hvalue, ← esp_pushed machine returnSentinel]
  exact Stack.loadWord?_withWord (low_pushed hlow _) (high_pushed hlow hhigh _) _

end Room

/-- A procedure that has only written to `eax` goes back to the caller. -/
theorem steps_return (hpop : procedure.instruction? pc = some (.reg .pop .ebp))
    (hretn : procedure.instruction? (pc + 1) = some .retn) (hpc : pc + 1 < procedure.length)
    (hlow : machine.stack.base.toNat + 8 ≤ machine.registers.esp.toNat)
    (hhigh : machine.registers.esp.toNat ≤
      machine.stack.base.toNat + machine.stack.region.size) (word : UInt32) :
    Steps invoke procedure 2 (some pc)
      { machine.entered with registers := machine.entered.registers.set .eax word } none
      { machine.entered with registers := machine.registers.set .eax word } := by
  let body : Machine H :=
    { machine.entered with registers := machine.entered.registers.set .eax word }
  have hesp : body.registers.esp = machine.registers.esp - 4 - 4 := by
    rw [esp_set (by decide), esp_entered]
  have hreturn : machine.registers.esp - 4 - 4 + 4 = machine.registers.esp - 4 := by grind
  have hcaller : machine.registers.esp - 4 - 4 + 4 + 4 = machine.registers.esp := by grind
  have hsaved : body.stack.region.loadWord? body.registers.esp =
      some (machine.registers.value .ebp) := by
    rw [hesp]
    exact loadWord?_saved hlow hhigh
  have hsentinel : body.stack.region.loadWord? (body.registers.esp + 4) =
      some returnSentinel := by
    rw [hesp, hreturn]
    exact loadWord?_return hlow hhigh
  have hregisters : (body.popped.registers.set .ebp (machine.registers.value .ebp)).setEsp
      (body.registers.esp + 4 + 4) = machine.registers.set .eax word := by
    rw [popped, hesp, hcaller, hreturn]
    exact registers_left machine.registers _ word
  rw [← hregisters]
  exact steps_leaveFrame hpop hretn hpc hsaved hsentinel

/-- The argument at a depth is `[ebp + 8 + 4 * depth]` in the frame. -/
theorem wordAt?_entered {config : Config} (hvalid : config.validate = .ok ())
    (hlayout : Layout config machine)
    (hlow : machine.stack.base.toNat + 8 ≤ machine.registers.esp.toNat) {depth : Nat}
    {word : UInt32} (harg : arg depth machine = .ok word machine) :
    machine.entered.wordAt? (machine.entered.registers.value .ebp +
      UInt32.ofNat (8 + 4 * depth)) = some word := by
  obtain ⟨hwrap, hload⟩ := Stack.top_eq_ok (arg_eq_ok_iff.1 harg)
  have haddress : machine.entered.registers.value .ebp + UInt32.ofNat (8 + 4 * depth) =
      machine.registers.esp + UInt32.ofNat (4 * depth) := by
    rw [ebp_entered, UInt32.ofNat_add]
    show machine.registers.esp - 4 - 4 + (8 + UInt32.ofNat (4 * depth)) = _
    grind
  have hle : machine.registers.esp ≤ machine.registers.esp + UInt32.ofNat (4 * depth) := by
    rw [UInt32.le_iff_toNat_le, toNat_add_ofNat hwrap]
    omega
  have hentered : Layout config machine.entered :=
    ⟨hlayout.data, hlayout.stack_base, hlayout.stack_size⟩
  rw [haddress]
  apply hentered.wordAt?_of_stack hvalid
  rw [loadWord?_entered hlow hle, hload]

end X86Listing.Machine
