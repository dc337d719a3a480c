import X86Listing.Proofs.Machine.Faults
import X86Listing.Proofs.Register.File

/-!
# Instructions that leave the stack top

The stack top is a register like the others, so a write to `esp` moves it as a push or a pop
does.  An instruction that does none of this leaves the stack top where it is, whatever else
it does.

* `Instruction.SparesEsp` holds of these instructions.  It can be read off the instruction.
* `KeepsEsp` is the property of a computation that the stack top is the same behind it.  A
  sequence has it if its parts do (`KeepsEsp.bind`), and so does whatever only reads
  (`Reads.keepsEsp`).
* `execute_keepsEsp` is the result, with one case for each shape of instruction.  `esp_of_push`
  is about the push that every run begins with.
-/

namespace X86Listing

/-- The instruction is no push, pop or call, and it does not write `esp` or a part of it. -/
def Instruction.SparesEsp : Instruction → Prop
  | call _ => False
  | reg op r0 =>
    match op with
    | .push | .pop => False
    | .not | .inc | .dec => r0.slot ≠ Reg.esp.slot
    | .jump _ => True
  | imm op _ => op ≠ .push
  | regReg op r0 _ | regImm op r0 _ => op = .cmp ∨ r0.slot ≠ Reg.esp.slot
  | regMem op r0 _ => op = .cmp ∨ r0.slot ≠ Reg.esp.slot
  | shrd r0 _ _ | lea r0 _ _ _ _ => r0.slot ≠ Reg.esp.slot
  | retn | jumpTable .. | mem .. | memReg .. | memImm .. => True

namespace Machine

/-! ## Computations that leave the stack top -/

variable {H : Host} {α β : Type}

/-- The computation leaves the stack top where it is. -/
def KeepsEsp (x : Eval H α) : Prop :=
  ∀ machine a machine', x machine = .ok a machine' →
    machine'.registers.esp = machine.registers.esp

theorem Reads.keepsEsp {x : Eval H α} (h : Reads x) : KeepsEsp x := by
  intro machine a machine' hx
  rw [h.2 _ _ _ hx]

theorem KeepsEsp.bind {x : Eval H α} {f : α → Eval H β} (hx : KeepsEsp x)
    (hf : ∀ a, KeepsEsp (f a)) : KeepsEsp (x >>= f) := by
  intro machine b machine' h
  obtain ⟨a, machine₁, hfirst, hrest⟩ := bind_eq_ok h
  exact (hf a _ _ _ hrest).trans (hx _ _ _ hfirst)

theorem keepsEsp_pure (a : α) : KeepsEsp (pure a : Eval H α) :=
  (reads_pure a).keepsEsp

theorem keepsEsp_modifyRegisters {f : RegisterFile → RegisterFile}
    (h : ∀ file, (f file).esp = file.esp) : KeepsEsp (modifyRegisters f : Eval H Unit) := by
  intro machine a machine' hmodify
  cases hmodify
  exact h machine.registers

theorem keepsEsp_writeRegister {reg : Reg} (h : reg.slot ≠ Reg.esp.slot) (value : UInt32) :
    KeepsEsp (writeRegister reg value : Eval H Unit) :=
  keepsEsp_modifyRegisters fun _ => RegisterFile.esp_set h

theorem keepsEsp_storeWord (address value : UInt32) :
    KeepsEsp (storeWord address value : Eval H Unit) := by
  intro machine a machine' h
  have hstore := storeWord_of_eq_ok h
  unfold storeWord? at hstore
  split at hstore
  · cases hstore
    rfl
  · obtain ⟨region, -, rfl⟩ := Option.map_eq_some_iff.1 hstore
    rfl

/-- A comparison writes the flags only, and every other operation its destination. -/
theorem esp_apply {file : RegisterFile} {r0 : Reg} {effect : Effect}
    (h : (∃ flags, effect = .flags flags) ∨ r0.slot ≠ Reg.esp.slot) :
    (file.apply r0 effect).esp = file.esp := by
  cases effect with
  | flags flags => exact RegisterFile.esp_setFlags
  | value value =>
    rcases h with ⟨flags, hflags⟩ | hne
    · cases hflags
    · exact RegisterFile.esp_set hne

theorem executePair_keepsEsp {op : PairOp} {r0 : Reg}
    (h : op = .cmp ∨ r0.slot ≠ Reg.esp.slot) (word : UInt32) :
    KeepsEsp (executePair op r0 word : Eval H Unit) := by
  refine keepsEsp_modifyRegisters fun file => esp_apply ?_
  rcases h with rfl | hne
  · exact Or.inl ⟨_, rfl⟩
  · exact Or.inr hne

theorem executeLoad_keepsEsp {op : LoadOp} {r0 : Reg}
    (h : op = .cmp ∨ r0.slot ≠ Reg.esp.slot) (mem : MemoryOperand) :
    KeepsEsp (executeLoad op r0 mem : Eval H Unit) := by
  refine (reads_address mem).keepsEsp.bind fun _ => (reads_loadWord _).keepsEsp.bind fun word =>
    keepsEsp_modifyRegisters fun file => esp_apply ?_
  rcases h with rfl | hne
  · exact Or.inl ⟨_, rfl⟩
  · exact Or.inr hne

theorem executeWide_keepsEsp (op : WideOp) (mem : MemoryOperand) :
    KeepsEsp (executeWide op mem : Eval H Unit) := by
  have hpair (low high : UInt32) (file : RegisterFile) :
      ((file.set .eax low).set .edx high).esp = file.esp := by
    rw [RegisterFile.esp_set (by decide), RegisterFile.esp_set (by decide)]
  refine (reads_address mem).keepsEsp.bind fun _ => (reads_loadWord _).keepsEsp.bind fun word =>
    reads_get.keepsEsp.bind fun machine => ?_
  cases op with
  | mul => exact keepsEsp_modifyRegisters (hpair _ _)
  | div =>
    simp only
    cases divide? (machine.registers.value .edx) (machine.registers.value .eax) word with
    | none => exact (reads_throw rfl).keepsEsp
    | some result => exact keepsEsp_modifyRegisters (hpair _ _)

theorem executeStore_keepsEsp (op : StoreOp) (mem : MemoryOperand) (word : UInt32) :
    KeepsEsp (executeStore op mem word : Eval H Unit) := by
  refine (reads_address mem).keepsEsp.bind fun address => ?_
  cases op with
  | mov => exact keepsEsp_storeWord address word
  | cmp =>
    exact (reads_loadWord address).keepsEsp.bind fun _ =>
      keepsEsp_modifyRegisters fun _ => RegisterFile.esp_setFlags

/-! ## Instructions -/

variable {invoke : H.Function → Eval H Unit} {procedure : Procedure} {pc : Nat}

theorem executeReg_keepsEsp {op : RegOp} {r0 : Reg} (h : (Instruction.reg op r0).SparesEsp) :
    KeepsEsp (executeReg procedure pc op r0 : Eval H (Option Nat)) := by
  refine (reads_readRegister r0).keepsEsp.bind fun value => ?_
  cases op with
  | push | pop => exact absurd h id
  | not | inc | dec => exact (keepsEsp_writeRegister h _).bind fun _ => keepsEsp_pure _
  | jump condition => exact (reads_branch pc condition value).keepsEsp

/-- An instruction that spares `esp` leaves the stack top, unless it is a `retn`. -/
theorem execute_keepsEsp {instruction : Instruction} (hspares : instruction.SparesEsp)
    (hretn : instruction ≠ .retn) : KeepsEsp (execute invoke procedure pc instruction) := by
  cases instruction with
  | retn => exact absurd rfl hretn
  | call target => exact absurd hspares id
  | reg op r0 => exact executeReg_keepsEsp hspares
  | imm op v0 =>
    cases op with
    | push => exact absurd rfl hspares
    | jump condition => exact (reads_branch pc condition v0).keepsEsp
  | jumpTable condition v0 r0 v1 =>
    refine reads_get.keepsEsp.bind fun machine => ?_
    simp only
    split
    · exact (reads_loadWord _).keepsEsp.bind fun target => (reads_jump target).keepsEsp
    · exact keepsEsp_pure _
  | regReg op r0 r1 =>
    exact KeepsEsp.bind ((reads_readRegister r1).keepsEsp.bind fun _ =>
      executePair_keepsEsp hspares _) fun _ => keepsEsp_pure _
  | regImm op r0 v0 =>
    exact KeepsEsp.bind (executePair_keepsEsp hspares v0) fun _ => keepsEsp_pure _
  | shrd | lea =>
    refine KeepsEsp.bind ?_ fun _ => keepsEsp_pure _
    simp only [executePlain]
    exact keepsEsp_modifyRegisters fun _ => RegisterFile.esp_set hspares
  | regMem op r0 mem =>
    exact KeepsEsp.bind (executeLoad_keepsEsp hspares mem) fun _ => keepsEsp_pure _
  | mem op mem => exact KeepsEsp.bind (executeWide_keepsEsp op mem) fun _ => keepsEsp_pure _
  | memReg op mem r1 =>
    exact KeepsEsp.bind ((reads_readRegister r1).keepsEsp.bind fun word =>
      executeStore_keepsEsp op mem word) fun _ => keepsEsp_pure _
  | memImm op mem v1 =>
    exact KeepsEsp.bind (executeStore_keepsEsp op mem v1) fun _ => keepsEsp_pure _

theorem esp_of_push {word : UInt32} {machine machine' : Machine H}
    (h : push word machine = .ok () machine') :
    machine'.registers.esp = machine.registers.esp - 4 := by
  obtain ⟨region, -, rfl⟩ := push_of_eq_ok h
  exact RegisterFile.esp_setEsp

end Machine

end X86Listing
