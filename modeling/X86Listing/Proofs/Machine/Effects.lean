import X86Listing.Proofs.Instruction.Decoding
import X86Listing.Proofs.Machine.Faults
import X86Listing.Proofs.Register.File

/-!
# What an instruction changes

An instruction that is no call has one of five outcomes: it sets the flags, it writes its
destinations, it pops a word, it pushes one, or it stores one.  `Outcome` lists them, with all
that the machine has changed in each.  `execute_outcome` says that there is no other, and later
proofs start from it and open no instruction.

`step_confined` reads off what an instruction leaves: the flags unless it compares, the slots
that no listing can name, the stack top, the memory outside one word, and everything else.

* `Instruction.destinations` and `Instruction.stored?` say what an instruction writes.  They
  can be read off the instruction, before it is executed.
* `Region.SameOutside` relates two regions that differ in the word at an address at most.
* `ConfinedRegisters` and `ConfinedMemory` put together what an instruction leaves, of the
  registers and of everything else.
-/

namespace X86Listing

/-! ## Reading off an instruction -/

namespace Instruction

/-- The registers that an instruction has as destinations.  The stack top is not among them
because a push, a pop or a return moves it. -/
def destinations : Instruction → List Reg
  | retn | call _ | imm _ _ | jumpTable .. | memReg .. | memImm .. => []
  | reg op r0 =>
    match op with
    | .pop | .not | .inc | .dec => [r0]
    | .push | .jump _ => []
  | regReg op r0 _ | regImm op r0 _ => if op = .cmp then [] else [r0]
  | regMem op r0 _ => if op = .cmp then [] else [r0]
  | shrd r0 _ _ | lea r0 _ _ _ _ => [r0]
  | mem _ _ => [.eax, .edx]

/-- The address of the word that an instruction stores, by the registers before it and after
it.  A push stores at the new stack top. -/
def stored? (before after : RegisterFile) : Instruction → Option UInt32
  | reg .push _ | imm .push _ => some after.esp
  | memReg .mov operand _ | memImm .mov operand _ =>
    some (before.value operand.base + operand.disp)
  | _ => none

theorem WellFormed.isSpelled {instruction : Instruction} (h : instruction.WellFormed) :
    ∀ reg ∈ instruction.registers, reg.IsSpelled := by
  cases instruction <;> simp_all [WellFormed, registers]

/-- The registers of an instruction that a line is decoded as have names. -/
theorem isSpelled_of_decode {symbols : Symbols} {line : List Char} {instruction : Instruction}
    (h : decode symbols line = .ok instruction) :
    ∀ reg ∈ instruction.registers, reg.IsSpelled := by
  unfold decode at h
  split at h
  · cases h
  · exact (Decoder.operands_wellFormed h).1.isSpelled

/-- A destination is a register that the instruction names, or one of `edx:eax`. -/
theorem isSpelled_of_mem_destinations {instruction : Instruction}
    (h : ∀ reg ∈ instruction.registers, reg.IsSpelled) :
    ∀ reg ∈ instruction.destinations, reg.IsSpelled := by
  have heax : Reg.eax.IsSpelled := ⟨"eax", by simp [Reg.spellings]⟩
  have hedx : Reg.edx.IsSpelled := ⟨"edx", by simp [Reg.spellings]⟩
  cases instruction with
  | reg op r0 => cases op <;> simp_all [registers, destinations]
  | regReg op | regImm op | regMem op =>
    by_cases hop : op = .cmp <;> simp_all [registers, destinations]
  | _ => simp_all [registers, destinations]

end Instruction

namespace Reg.IsSpelled

variable {reg : Reg}

/-- The slots behind the eight general ones have no names. -/
theorem slot_lt (h : reg.IsSpelled) : reg.slot.val < 8 := by
  obtain ⟨name, hmem⟩ := h
  have hall : ∀ entry ∈ Reg.spellings.toList, entry.2.slot.val < 8 := by decide +kernel
  exact hall (name, reg) hmem.val

/-- No part of `esp` has a name of its own. -/
theorem eq_esp (h : reg.IsSpelled) (hslot : reg.slot = Reg.esp.slot) : reg = .esp := by
  obtain ⟨name, hmem⟩ := h
  have hall : ∀ entry ∈ Reg.spellings.toList, entry.2.slot = Reg.esp.slot → entry.2 = .esp := by
    decide +kernel
  exact hall (name, reg) hmem.val hslot

end Reg.IsSpelled

/-! ## Mnemonics of the operations -/

theorem Condition.mnemonic_ne (condition : Condition) :
    condition.mnemonic ≠ "cmp" ∧ condition.mnemonic ≠ "push" ∧ condition.mnemonic ≠ "pop" ∧
      condition.mnemonic ≠ "retn" := by
  cases condition <;> decide

theorem RegOp.mnemonic_ne_cmp (op : RegOp) : op.mnemonic ≠ "cmp" := by
  cases op with
  | jump condition => exact condition.mnemonic_ne.1
  | _ => decide

theorem WideOp.mnemonic_ne_cmp (op : WideOp) : op.mnemonic ≠ "cmp" := by
  cases op <;> decide

/-- An operation on a register and a word compares them or has a value. -/
theorem PairOp.eval_cases (op : PairOp) (a b : UInt32) :
    op = .cmp ∧ op.eval a b = .flags (compareFlags a b) ∨
      op ≠ .cmp ∧ op.mnemonic ≠ "cmp" ∧ ∃ value, op.eval a b = .value value := by
  cases op <;> simp [eval, mnemonic]

theorem LoadOp.eval_cases (op : LoadOp) (a b : UInt32) :
    op = .cmp ∧ op.eval a b = .flags (compareFlags a b) ∨
      op ≠ .cmp ∧ op.mnemonic ≠ "cmp" ∧ ∃ value, op.eval a b = .value value := by
  cases op <;> simp [eval, mnemonic]

theorem compareFlags_mem (a b : UInt32) :
    compareFlags a b ∈ [0, Flag.zero, Flag.carry ||| Flag.sign] := by
  unfold compareFlags
  split
  · simp
  · split <;> simp

/-! ## Several writes -/

namespace RegisterFile

/-- The file after several writes, one after the other. -/
def setAll (file : RegisterFile) (writes : List (Reg × UInt32)) : RegisterFile :=
  writes.foldl (fun file write => file.set write.1 write.2) file

/-- Writes leave the slots of other registers. -/
theorem slot_setAll {file : RegisterFile} {writes : List (Reg × UInt32)} {i : Fin 16}
    (h : ∀ reg ∈ writes.map Prod.fst, reg.slot ≠ i) :
    (file.setAll writes).slot i = file.slot i := by
  induction writes generalizing file with
  | nil => rfl
  | cons write writes ih =>
    obtain ⟨hfirst, hrest⟩ := List.forall_mem_cons.1 h
    show ((file.set write.1 write.2).setAll writes).slot i = file.slot i
    rw [ih hrest]
    exact slot_setSlot_of_ne file _ hfirst

end RegisterFile

/-! ## Regions that differ in one word -/

namespace Region

/-- The second region differs from the first one in the word at an address at most. -/
structure SameOutside (old new : Region) (address : UInt32) : Prop where
  base_eq : new.base = old.base
  size_eq : new.size = old.size
  /-- A byte that has changed is one of the four at the address. -/
  bounds_of_ne : ∀ i, new.bytes.get i ≠ old.bytes.get i →
    address.toNat ≤ old.base.toNat + i ∧ old.base.toNat + i < address.toNat + 4

theorem SameOutside.refl (region : Region) (address : UInt32) :
    SameOutside region region address :=
  ⟨rfl, rfl, fun _ hne => absurd rfl hne⟩

theorem sameOutside_of_storeWord? {old new : Region} {address word : UInt32}
    (h : old.storeWord? address word = some new) : SameOutside old new address := by
  rw [storeWord?_eq, store?_eq_some_iff] at h
  obtain ⟨hlow, hhigh, rfl⟩ := h
  have hlength : (bytesOfWord word).length = 4 := rfl
  refine ⟨rfl, rfl, fun i hne => ?_⟩
  by_contra hout
  exact hne (get_writeAt_of_outside (by omega))

end Region

namespace Machine

variable {H : Host} {invoke : H.Function → Eval H Unit} {procedure : Procedure} {pc : Nat}
  {machine machine' : Machine H} {instruction : Instruction} {next : Option Nat}

/-! ## Outcomes -/

/-- What an instruction that is no call can do to a machine. -/
inductive Outcome (instruction : Instruction) (machine : Machine H) : Machine H → Prop where
  /-- A comparison sets the flags. -/
  | flags (a b : UInt32) (hmnemonic : instruction.mnemonic = "cmp")
      (hstored : ∀ after, instruction.stored? machine.registers after = none) :
      Outcome instruction machine
        { machine with registers := machine.registers.setFlags (compareFlags a b) }
  /-- The destinations get values. -/
  | write (writes : List (Reg × UInt32)) (hmnemonic : instruction.mnemonic ≠ "cmp")
      (hstored : ∀ after, instruction.stored? machine.registers after = none)
      (hwrites : writes.map Prod.fst = instruction.destinations) :
      Outcome instruction machine
        { machine with registers := machine.registers.setAll writes }
  /-- The stack top moves up, and then the destinations get values. -/
  | pop (writes : List (Reg × UInt32))
      (hmnemonic : instruction.mnemonic = "pop" ∨ instruction.mnemonic = "retn")
      (hstored : ∀ after, instruction.stored? machine.registers after = none)
      (hwrites : writes.map Prod.fst = instruction.destinations) :
      Outcome instruction machine
        { machine with registers := machine.popped.registers.setAll writes }
  /-- The stack top moves down, and a word is stored there. -/
  | push {word : UInt32} {region : Region} (hmnemonic : instruction.mnemonic = "push")
      (hstored : ∀ after, instruction.stored? machine.registers after = some after.esp)
      (hregion : machine.stack.region.storeWord? (machine.registers.esp - 4) word =
        some region) :
      Outcome instruction machine
        { machine with
          stack := ⟨region⟩
          registers := machine.registers.setEsp (machine.registers.esp - 4) }
  /-- A word is stored at an address. -/
  | store {address word : UInt32} {machine' : Machine H}
      (hmnemonic : instruction.mnemonic = "mov")
      (hstored : ∀ after, instruction.stored? machine.registers after = some address)
      (hstore : machine.storeWord? address word = some machine') :
      Outcome instruction machine machine'

namespace Outcome

/-- An instruction without destinations that only reads. -/
theorem read (hmnemonic : instruction.mnemonic ≠ "cmp")
    (hstored : ∀ after, instruction.stored? machine.registers after = none)
    (hdestinations : instruction.destinations = []) : Outcome instruction machine machine :=
  .write [] hmnemonic hstored hdestinations.symm

/-- An instruction that writes one register. -/
theorem writeOne (hmnemonic : instruction.mnemonic ≠ "cmp")
    (hstored : ∀ after, instruction.stored? machine.registers after = none) {r0 : Reg}
    (hdestinations : instruction.destinations = [r0]) (value : UInt32) :
    Outcome instruction machine { machine with registers := machine.registers.set r0 value } :=
  .write [(r0, value)] hmnemonic hstored hdestinations.symm

/-- An instruction that compares or writes one register, whichever its effect says. -/
theorem apply {effect : Effect} {r0 : Reg}
    (hstored : ∀ after, instruction.stored? machine.registers after = none)
    (heffect : (instruction.mnemonic = "cmp" ∧ ∃ a b, effect = .flags (compareFlags a b)) ∨
      instruction.mnemonic ≠ "cmp" ∧ instruction.destinations = [r0] ∧
        ∃ value, effect = .value value) :
    Outcome instruction machine
      { machine with registers := machine.registers.apply r0 effect } := by
  rcases heffect with ⟨hmnemonic, a, b, rfl⟩ | ⟨hmnemonic, hdestinations, value, rfl⟩
  · exact .flags a b hmnemonic hstored
  · exact .writeOne hmnemonic hstored hdestinations value

end Outcome

/-! ## The parts of an instruction -/

theorem executeReg_outcome {op : RegOp} {r0 : Reg}
    (h : executeReg procedure pc op r0 machine = .ok next machine') :
    Outcome (.reg op r0) machine machine' := by
  have hcmp : (Instruction.reg op r0).mnemonic ≠ "cmp" := op.mnemonic_ne_cmp
  obtain ⟨value, machine₁, hread, hrest⟩ := bind_eq_ok h
  obtain rfl := (reads_readRegister r0).2 _ _ _ hread
  clear h
  cases op with
  | push =>
    obtain ⟨_, machine₂, hpush, hreturn⟩ := bind_eq_ok hrest
    cases hreturn
    obtain ⟨region, hregion, rfl⟩ := push_of_eq_ok hpush
    exact .push rfl (fun _ => rfl) hregion
  | pop =>
    obtain ⟨word, machine₂, hpop, hwrite⟩ := bind_eq_ok hrest
    obtain ⟨rfl, -⟩ := pop_of_eq_ok hpop
    cases hwrite
    exact .pop [(r0, word)] (Or.inl rfl) (fun _ => rfl) rfl
  | not | inc | dec =>
    cases hrest
    exact .writeOne hcmp (fun _ => rfl) rfl _
  | jump condition =>
    obtain rfl := (reads_branch pc condition value).2 _ _ _ hrest
    exact .read hcmp (fun _ => rfl) rfl

theorem executeImm_outcome {op : ImmOp} {v0 : UInt32}
    (h : executeImm procedure pc op v0 machine = .ok next machine') :
    Outcome (.imm op v0) machine machine' := by
  cases op with
  | push =>
    obtain ⟨_, machine₁, hpush, hreturn⟩ := bind_eq_ok h
    cases hreturn
    obtain ⟨region, hregion, rfl⟩ := push_of_eq_ok hpush
    exact .push rfl (fun _ => rfl) hregion
  | jump condition =>
    obtain rfl := (reads_branch pc condition v0).2 _ _ _ h
    exact .read condition.mnemonic_ne.1 (fun _ => rfl) rfl

/-- An operation on a register and a word, which is the value of an operand. -/
theorem executePair_outcome {op : PairOp} {r0 : Reg} {word : UInt32}
    (h : executePair op r0 word machine = .ok () machine')
    (hmnemonic : instruction.mnemonic = op.mnemonic)
    (hstored : ∀ after, instruction.stored? machine.registers after = none)
    (hdestinations : instruction.destinations = if op = .cmp then [] else [r0]) :
    Outcome instruction machine machine' := by
  cases h
  refine .apply hstored ?_
  rcases op.eval_cases (machine.registers.value r0) word with ⟨rfl, heval⟩ | ⟨hop, hne, heval⟩
  · exact Or.inl ⟨hmnemonic, _, _, heval⟩
  · rw [if_neg hop] at hdestinations
    exact Or.inr ⟨by rwa [hmnemonic], hdestinations, heval⟩

theorem executeLoad_outcome {op : LoadOp} {r0 : Reg} {operand : MemoryOperand}
    (h : executeLoad op r0 operand machine = .ok () machine') :
    Outcome (.regMem op r0 operand) machine machine' := by
  obtain ⟨address, machine₁, haddress, hrest⟩ := bind_eq_ok h
  obtain rfl := (reads_address operand).2 _ _ _ haddress
  obtain ⟨word, machine₂, hload, hmodify⟩ := bind_eq_ok hrest
  obtain rfl := (reads_loadWord address).2 _ _ _ hload
  cases hmodify
  refine .apply (fun _ => rfl) ?_
  rcases op.eval_cases (machine₂.registers.value r0) word with ⟨rfl, heval⟩ | ⟨hop, hne, heval⟩
  · exact Or.inl ⟨rfl, _, _, heval⟩
  · exact Or.inr ⟨hne, if_neg hop, heval⟩

theorem executeWide_outcome {op : WideOp} {operand : MemoryOperand}
    (h : executeWide op operand machine = .ok () machine') :
    Outcome (.mem op operand) machine machine' := by
  have hcmp : (Instruction.mem op operand).mnemonic ≠ "cmp" := op.mnemonic_ne_cmp
  obtain ⟨address, machine₁, haddress, hrest⟩ := bind_eq_ok h
  obtain rfl := (reads_address operand).2 _ _ _ haddress
  obtain ⟨word, machine₂, hload, hloaded⟩ := bind_eq_ok hrest
  obtain rfl := (reads_loadWord address).2 _ _ _ hload
  obtain ⟨found, machine₃, hget, hwide⟩ := bind_eq_ok hloaded
  cases hget
  clear h hrest hloaded
  cases op with
  | mul =>
    cases hwide
    exact .write [(.eax, _), (.edx, _)] hcmp (fun _ => rfl) rfl
  | div =>
    simp only at hwide
    cases hdivide : divide? (machine₂.registers.value .edx) (machine₂.registers.value .eax) word
      with
    | none =>
      rw [hdivide] at hwide
      cases hwide
    | some result =>
      rw [hdivide] at hwide
      cases hwide
      exact .write [(.eax, _), (.edx, _)] hcmp (fun _ => rfl) rfl

/-- An operation on a word of memory and another word, which is the value of an operand. -/
theorem executeStore_outcome {op : StoreOp} {operand : MemoryOperand} {word : UInt32}
    (h : executeStore op operand word machine = .ok () machine')
    (hmnemonic : instruction.mnemonic = op.mnemonic)
    (hstored : ∀ after, instruction.stored? machine.registers after =
      if op = .mov then some (machine.registers.value operand.base + operand.disp) else none) :
    Outcome instruction machine machine' := by
  obtain ⟨address, machine₁, haddress, hrest⟩ := bind_eq_ok h
  cases haddress
  clear h
  cases op with
  | mov => exact .store hmnemonic hstored (storeWord_of_eq_ok hrest)
  | cmp =>
    obtain ⟨old, machine₂, hload, hmodify⟩ := bind_eq_ok hrest
    obtain rfl := (reads_loadWord _).2 _ _ _ hload
    cases hmodify
    exact .flags _ _ hmnemonic hstored

/-! ## Instructions -/

/-- An instruction that is no call has one of the outcomes. -/
theorem execute_outcome (hcall : ∀ target, instruction ≠ .call target)
    (h : execute invoke procedure pc instruction machine = .ok next machine') :
    Outcome instruction machine machine' := by
  cases instruction with
  | call target => exact absurd rfl (hcall target)
  | retn =>
    obtain ⟨address, machine₁, hpop, hreturn⟩ := bind_eq_ok h
    obtain ⟨rfl, -⟩ := pop_of_eq_ok hpop
    split at hreturn
    · cases hreturn
      exact .pop [] (Or.inr rfl) (fun _ => rfl) rfl
    · cases hreturn
  | reg op r0 => exact executeReg_outcome h
  | imm op v0 => exact executeImm_outcome h
  | jumpTable condition v0 r0 v1 =>
    obtain ⟨found, machine₁, hget, h⟩ := bind_eq_ok h
    cases hget
    have hsame : machine' = machine := by
      simp only at h
      split at h
      · obtain ⟨target, machine₂, hload, hjump⟩ := bind_eq_ok h
        obtain rfl := (reads_loadWord _).2 _ _ _ hload
        exact (reads_jump target).2 _ _ _ hjump
      · cases h
        rfl
    rw [hsame]
    exact .read condition.mnemonic_ne.1 (fun _ => rfl) rfl
  | regReg op r0 r1 =>
    obtain ⟨_, _, hplain, hreturn⟩ := bind_eq_ok h
    cases hreturn
    obtain ⟨word, machine₁, hread, hpair⟩ := bind_eq_ok hplain
    obtain rfl := (reads_readRegister r1).2 _ _ _ hread
    exact executePair_outcome hpair rfl (fun _ => rfl) rfl
  | regImm op r0 v0 =>
    obtain ⟨_, _, hpair, hreturn⟩ := bind_eq_ok h
    cases hreturn
    exact executePair_outcome hpair rfl (fun _ => rfl) rfl
  | shrd r0 r1 r2 =>
    have hcmp : (Instruction.shrd r0 r1 r2).mnemonic ≠ "cmp" := show "shrd" ≠ "cmp" by decide
    cases h
    exact .writeOne hcmp (fun _ => rfl) rfl _
  | lea r0 r1 r2 index v0 =>
    have hcmp : (Instruction.lea r0 r1 r2 index v0).mnemonic ≠ "cmp" :=
      show "lea" ≠ "cmp" by decide
    cases h
    exact .writeOne hcmp (fun _ => rfl) rfl _
  | regMem op r0 operand =>
    obtain ⟨_, _, hload, hreturn⟩ := bind_eq_ok h
    cases hreturn
    exact executeLoad_outcome hload
  | mem op operand =>
    obtain ⟨_, _, hwide, hreturn⟩ := bind_eq_ok h
    cases hreturn
    exact executeWide_outcome hwide
  | memReg op operand r1 =>
    obtain ⟨_, _, hplain, hreturn⟩ := bind_eq_ok h
    cases hreturn
    obtain ⟨word, machine₁, hread, hstore⟩ := bind_eq_ok hplain
    obtain rfl := (reads_readRegister r1).2 _ _ _ hread
    exact executeStore_outcome hstore rfl fun _ => by cases op <;> rfl
  | memImm op operand v1 =>
    obtain ⟨_, _, hstore, hreturn⟩ := bind_eq_ok h
    cases hreturn
    exact executeStore_outcome hstore rfl fun _ => by cases op <;> rfl

/-! ## What stays -/

theorem storeWord?_sameOutside {address word : UInt32}
    (h : machine.storeWord? address word = some machine') :
    machine.data.region.SameOutside machine'.data.region address ∧
      machine.stack.region.SameOutside machine'.stack.region address ∧
      machine' = { machine with
        data := { machine.data with region := machine'.data.region }
        stack := machine'.stack } := by
  unfold storeWord? at h
  split at h
  · next data hdata =>
    cases h
    obtain ⟨region, hregion, rfl⟩ := Option.map_eq_some_iff.1 hdata
    exact ⟨Region.sameOutside_of_storeWord? hregion, .refl .., rfl⟩
  · obtain ⟨region, hregion, rfl⟩ := Option.map_eq_some_iff.1 h
    exact ⟨.refl .., Region.sameOutside_of_storeWord? hregion, rfl⟩

/-- What an instruction leaves of the registers. -/
structure ConfinedRegisters (instruction : Instruction) (file file' : RegisterFile) : Prop where
  /-- Only a comparison changes the flags, and it has three answers. -/
  flags_eq : if instruction.mnemonic = "cmp" then
    file'.flags ∈ [0, Flag.zero, Flag.carry ||| Flag.sign] else file'.flags = file.flags
  /-- Beside the flags and the stack top, only the destinations change. -/
  slot_eq : ∀ i, (∀ reg ∈ instruction.destinations, reg.slot ≠ i) → i ≠ Reg.esp.slot →
    i ≠ Reg.eflags.slot → file'.slot i = file.slot i
  /-- The segment registers and the instruction pointer stay. -/
  unnamed_eq : ∀ i : Fin 16, 8 ≤ i.val → i.val < 15 → file'.slot i = file.slot i
  /-- A push, a pop and a return move the stack top, and so does an instruction that has it as
  its destination. -/
  esp_eq : instruction.mnemonic ∉ ["push", "pop", "retn"] → .esp ∉ instruction.destinations →
    file'.esp = file.esp

/-- The machine has changed in its registers, and in the word at an address if there is one. -/
structure ConfinedMemory (stored : Option UInt32) (machine machine' : Machine H) : Prop where
  /-- Memory stays if no word is stored. -/
  memory_eq : stored = none → machine'.data = machine.data ∧ machine'.stack = machine.stack
  /-- If a word is stored, memory stays outside its four bytes. -/
  sameOutside : ∀ address ∈ stored,
    machine.data.region.SameOutside machine'.data.region address ∧
      machine.stack.region.SameOutside machine'.stack.region address
  used_eq : machine'.data.used = machine.data.used
  chunks_eq : machine'.data.chunks = machine.data.chunks
  capacity_eq : machine'.data.capacity = machine.data.capacity
  stack_base_eq : machine'.stack.base = machine.stack.base
  words_eq : machine'.stack.words = machine.stack.words
  config_eq : machine'.config = machine.config
  procedures_eq : machine'.procedures = machine.procedures
  functions_eq : machine'.functions = machine.functions
  host_eq : machine'.host = machine.host

namespace ConfinedMemory

theorem of_registers (machine : Machine H) (file : RegisterFile) :
    ConfinedMemory none machine { machine with registers := file } where
  memory_eq _ := ⟨rfl, rfl⟩
  sameOutside address h := by cases h
  used_eq := rfl
  chunks_eq := rfl
  capacity_eq := rfl
  stack_base_eq := rfl
  words_eq := rfl
  config_eq := rfl
  procedures_eq := rfl
  functions_eq := rfl
  host_eq := rfl

theorem of_regions {address : UInt32} {data stack : Region} {file : RegisterFile}
    (hdata : machine.data.region.SameOutside data address)
    (hstack : machine.stack.region.SameOutside stack address) :
    ConfinedMemory (some address) machine
      { machine with
        registers := file
        data := { machine.data with region := data }
        stack := ⟨stack⟩ } where
  memory_eq h := by cases h
  sameOutside other h := by
    obtain rfl := Option.some.inj h
    exact ⟨hdata, hstack⟩
  used_eq := rfl
  chunks_eq := rfl
  capacity_eq := hdata.size_eq
  stack_base_eq := hstack.base_eq
  words_eq := congrArg (· / 4) hstack.size_eq
  config_eq := rfl
  procedures_eq := rfl
  functions_eq := rfl
  host_eq := rfl

end ConfinedMemory

namespace Outcome

/-- A slot changes if it is that of a destination, of the stack top or of the flags. -/
theorem slot_eq (h : Outcome instruction machine machine') {i : Fin 16}
    (hdestinations : ∀ reg ∈ instruction.destinations, Reg.slot reg ≠ i)
    (hesp : i ≠ Reg.esp.slot ∨ instruction.mnemonic ∉ ["push", "pop", "retn"])
    (hflags : i ≠ Reg.eflags.slot ∨ instruction.mnemonic ≠ "cmp") :
    machine'.registers.slot i = machine.registers.slot i := by
  cases h with
  | flags a b hmnemonic =>
    rcases hflags with hne | hcmp
    · exact RegisterFile.slot_setSlot_of_ne _ _ hne.symm
    · exact absurd hmnemonic hcmp
  | write writes hmnemonic hstored hwrites =>
    rw [← hwrites] at hdestinations
    exact RegisterFile.slot_setAll hdestinations
  | pop writes hmnemonic hstored hwrites =>
    rw [← hwrites] at hdestinations
    rcases hesp with hne | hnone
    · show (machine.popped.registers.setAll writes).slot i = _
      rw [RegisterFile.slot_setAll hdestinations]
      exact RegisterFile.slot_setSlot_of_ne _ _ hne.symm
    · rcases hmnemonic with hmnemonic | hmnemonic <;> simp [hmnemonic] at hnone
  | push hmnemonic =>
    rcases hesp with hne | hnone
    · exact RegisterFile.slot_setSlot_of_ne _ _ hne.symm
    · simp [hmnemonic] at hnone
  | store hmnemonic hstored hstore =>
    rw [(storeWord?_sameOutside hstore).2.2]

theorem flags_mem (h : Outcome instruction machine machine')
    (hcmp : instruction.mnemonic = "cmp") :
    machine'.registers.flags ∈ [0, Flag.zero, Flag.carry ||| Flag.sign] := by
  cases h with
  | flags a b =>
    show (machine.registers.setFlags _).flags ∈ _
    rw [RegisterFile.flags_setFlags]
    exact compareFlags_mem a b
  | write writes hmnemonic => exact absurd hcmp hmnemonic
  | pop writes hmnemonic => rcases hmnemonic with hmnemonic | hmnemonic <;> simp [hmnemonic] at hcmp
  | push hmnemonic | store hmnemonic => simp [hmnemonic] at hcmp

/-- The outcome changes registers, and memory in the word that is stored, if there is one. -/
theorem confinedMemory (h : Outcome instruction machine machine') :
    ConfinedMemory (instruction.stored? machine.registers machine'.registers) machine
      machine' := by
  cases h with
  | flags a b hmnemonic hstored =>
    rw [hstored]
    exact .of_registers machine _
  | write writes hmnemonic hstored =>
    rw [hstored]
    exact .of_registers machine _
  | pop writes hmnemonic hstored =>
    rw [hstored]
    exact .of_registers machine _
  | push hmnemonic hstored hregion =>
    rw [hstored, RegisterFile.esp_setEsp]
    exact .of_regions (.refl ..) (Region.sameOutside_of_storeWord? hregion)
  | store hmnemonic hstored hstore =>
    obtain ⟨hdata, hstack, heq⟩ := storeWord?_sameOutside hstore
    rw [hstored, heq]
    exact .of_regions hdata hstack

/-- With names for its registers, an instruction keeps to them. -/
theorem confinedRegisters (h : Outcome instruction machine machine')
    (hspelled : ∀ reg ∈ instruction.registers, reg.IsSpelled) :
    ConfinedRegisters instruction machine.registers machine'.registers := by
  have hnamed := Instruction.isSpelled_of_mem_destinations hspelled
  have hbehind {i : Fin 16} (hi : 8 ≤ i.val) : ∀ reg ∈ instruction.destinations, reg.slot ≠ i := by
    rintro reg hmem rfl
    exact absurd (hnamed reg hmem).slot_lt (Nat.not_lt.2 hi)
  refine ⟨?_, fun i hi hesp hflags => h.slot_eq hi (Or.inl hesp) (Or.inl hflags), ?_, ?_⟩
  · split
    · next hcmp => exact h.flags_mem hcmp
    · next hcmp => exact h.slot_eq (hbehind (by decide)) (Or.inl (by decide)) (Or.inr hcmp)
  · intro i hlow hhigh
    refine h.slot_eq (hbehind hlow) (Or.inl ?_) (Or.inl ?_)
    · rintro rfl
      exact absurd hlow (by decide)
    · rintro rfl
      exact absurd hhigh (by decide)
  · intro hmoves hesp
    refine h.slot_eq ?_ (Or.inr hmoves) (Or.inl (by decide))
    intro reg hmem hslot
    rw [(hnamed reg hmem).eq_esp hslot] at hmem
    exact hesp hmem

end Outcome

/-- An instruction that is no call, and whose registers have names or that a line is decoded
as, changes nothing but what it says: the flags if it compares, the stack top if it moves it,
its destinations, and one word of memory if it stores one. -/
theorem step_confined (hinstruction : procedure.instruction? pc = some instruction)
    (hspelled : (∀ reg ∈ instruction.registers, reg.IsSpelled) ∨
      ∃ symbols line, decode symbols line = .ok instruction)
    (hcall : ∀ target, instruction ≠ .call target)
    (h : step invoke procedure pc machine = .ok next machine') :
    ConfinedRegisters instruction machine.registers machine'.registers ∧
      ConfinedMemory (instruction.stored? machine.registers machine'.registers) machine
        machine' := by
  rw [step, hinstruction] at h
  have houtcome : Outcome instruction machine machine' := execute_outcome hcall h
  have hnamed : ∀ reg ∈ instruction.registers, reg.IsSpelled := by
    rcases hspelled with hnamed | ⟨symbols, line, hdecode⟩
    · exact hnamed
    · exact Instruction.isSpelled_of_decode hdecode
  exact ⟨houtcome.confinedRegisters hnamed, houtcome.confinedMemory⟩

/-- A procedure that compares a byte, stores a word that begins in the middle of another one,
and pushes the stack top. -/
def storingProcedure : Procedure :=
  ⟨"f", .empty, .empty,
    #[.regImm .cmp .al 1, .memReg .mov ⟨.eax, dataBase + 2⟩ .ebx, .reg .push .esp]⟩

/-- A machine with all flags set. -/
def flaggedMachine : Machine ⟨Unit, Unit⟩ :=
  { build ⟨16, 4⟩ () with
    registers := (RegisterFile.zero.setEsp (stackBase + 16)).setFlags 0xffffffff }

theorem step_confined_storingProcedure :
    (∃ machine', step (fun _ => pure ()) storingProcedure 0 flaggedMachine =
        .ok (some 1) machine' ∧
      machine'.registers.flags ∈ [0, Flag.zero, Flag.carry ||| Flag.sign] ∧
      machine'.data = flaggedMachine.data ∧ machine'.stack = flaggedMachine.stack) ∧
    (∃ machine', step (fun _ => pure ()) storingProcedure 1 flaggedMachine =
        .ok (some 2) machine' ∧
      machine'.registers.flags = flaggedMachine.registers.flags ∧
      machine'.registers.esp = flaggedMachine.registers.esp ∧
      flaggedMachine.data.region.SameOutside machine'.data.region (dataBase + 2)) ∧
    ∃ machine', step (fun _ => pure ()) storingProcedure 2 flaggedMachine =
        .ok (some 3) machine' ∧
      flaggedMachine.stack.region.SameOutside machine'.stack.region (stackBase + 12) := by
  have hfirst : storingProcedure.instruction? 0 = some (.regImm .cmp .al 1) := rfl
  have hsecond : storingProcedure.instruction? 1 =
      some (.memReg .mov ⟨.eax, dataBase + 2⟩ .ebx) := rfl
  have hthird : storingProcedure.instruction? 2 = some (.reg .push .esp) := rfl
  have hcompare : step (fun _ => pure ()) storingProcedure 0 flaggedMachine = .ok (some 1) _ := rfl
  have hstore : step (fun _ => pure ()) storingProcedure 1 flaggedMachine = .ok (some 2) _ := rfl
  have hpush : step (fun _ => pure ()) storingProcedure 2 flaggedMachine = .ok (some 3) _ := rfl
  have hal : Reg.al.IsSpelled := ⟨"al", by simp [Reg.spellings]⟩
  have heax : Reg.eax.IsSpelled := ⟨"eax", by simp [Reg.spellings]⟩
  have hebx : Reg.ebx.IsSpelled := ⟨"ebx", by simp [Reg.spellings]⟩
  have hline : decode ⟨.empty, .empty, .new 16⟩ "push esp".toList = .ok (.reg .push .esp) := by
    rfl
  obtain ⟨hflags, hmemory⟩ := step_confined hfirst
    (Or.inl (by simpa [Instruction.registers])) (by simp) hcompare
  obtain ⟨hkept, hstored⟩ := step_confined hsecond
    (Or.inl (by simp [Instruction.registers, heax, hebx])) (by simp) hstore
  obtain ⟨-, hpushed⟩ := step_confined hthird (Or.inr ⟨_, _, hline⟩) (by simp) hpush
  exact ⟨⟨_, hcompare, hflags.flags_eq, hmemory.memory_eq rfl⟩,
    ⟨_, hstore, hkept.flags_eq, hkept.esp_eq (by decide) (by decide),
      (hstored.sameOutside _ rfl).1⟩,
    ⟨_, hpush, (hpushed.sameOutside _ rfl).2⟩⟩

end Machine

end X86Listing
