import X86Listing.Instruction.Mnemonic
import X86Listing.Proofs.Machine.Instruction
import X86Listing.Proofs.Register.File

/-!
# Operand shapes

An operation takes its second word from the instruction, from a register or from memory.  Each
of these shapes has instructions of its own, and a comparison can also have memory on its left.
`execute_operandShapes` says that only the words matter, and not where they were found.

* `operand?` is the word that a memory operand reads.
* `executeLoad_eq_ok` and `executeStore_cmp_eq_ok` say what is done with this word, and
  `execute_regMem`, `execute_memReg` and `execute_memImm` carry it over to instructions.
* `LoadOp.eval_eq` compares the two lists of operations.  What they have in common is told by
  the mnemonics.
-/

namespace X86Listing

/-- Operations of one mnemonic have one effect. -/
theorem LoadOp.eval_eq {load : LoadOp} {pair : PairOp} (h : load.mnemonic = pair.mnemonic)
    (a b : UInt32) : load.eval a b = pair.eval a b := by
  cases load <;> cases pair <;> first | rfl | exact absurd h (by decide)

namespace Machine

variable {H : Host} {invoke : H.Function → Eval H Unit} {procedure : Procedure} {pc : Nat}
  {machine machine' : Machine H} {operand : MemoryOperand} {word : UInt32}

/-! ## Memory operands -/

/-- The word that a memory operand reads, if its four bytes are mapped. -/
def operand? (machine : Machine H) (operand : MemoryOperand) : Option UInt32 :=
  machine.wordAt? (machine.registers.value operand.base + operand.disp)

/-- The word is loaded before anything else is done. -/
theorem address_loadWord_bind {α : Type} (h : machine.operand? operand = some word)
    (f : UInt32 → Eval H α) :
    (address operand >>= fun address => loadWord address >>= f) machine = f word machine := by
  show EStateM.bind (loadWord (machine.registers.value operand.base + operand.disp)) f machine = _
  simp only [EStateM.bind, loadWord_eq_ok h]

theorem executeLoad_eq_ok (h : machine.operand? operand = some word) (op : LoadOp) (r0 : Reg) :
    executeLoad op r0 operand machine = .ok () { machine with
      registers := machine.registers.apply r0 (op.eval (machine.registers.value r0) word) } :=
  address_loadWord_bind h _

theorem executeStore_cmp_eq_ok (h : machine.operand? operand = some word) (right : UInt32) :
    executeStore .cmp operand right machine = .ok () { machine with
      registers := machine.registers.setFlags (compareFlags word right) } :=
  address_loadWord_bind h _

/-! ## Instructions with a memory operand -/

theorem execute_regMem {op : LoadOp} {r0 : Reg}
    (h : executeLoad op r0 operand machine = .ok () machine') :
    execute invoke procedure pc (.regMem op r0 operand) machine =
      .ok (some (pc + 1)) machine' := by
  show EStateM.bind (executeLoad op r0 operand) _ machine = _
  simp only [EStateM.bind, h]
  rfl

theorem execute_memReg {op : StoreOp} {r1 : Reg}
    (h : executeStore op operand (machine.registers.value r1) machine = .ok () machine') :
    execute invoke procedure pc (.memReg op operand r1) machine =
      .ok (some (pc + 1)) machine' := by
  show EStateM.bind (executeStore op operand (machine.registers.value r1)) _ machine = _
  simp only [EStateM.bind, h]
  rfl

theorem execute_memImm {op : StoreOp} {v1 : UInt32}
    (h : executeStore op operand v1 machine = .ok () machine') :
    execute invoke procedure pc (.memImm op operand v1) machine =
      .ok (some (pc + 1)) machine' := by
  show EStateM.bind (executeStore op operand v1) _ machine = _
  simp only [EStateM.bind, h]
  rfl

/-! ## One operation in several shapes -/

/-- An operation leaves the same machine with a value, with a word of memory and with a
register, if the three are one word.  The operations of two shapes are the same if they have
one mnemonic, so `imul` is left out, which has one shape only, and so are the shifts.  A
comparison with memory on its left sets the flags that it sets for a register, of this machine
or another, that holds the word of memory.  Nothing is asked of the registers: they may be parts
of a slot, and the destination may be the register that the address or the word is read from. -/
theorem execute_operandShapes (invoke : H.Function → Eval H Unit) (procedure : Procedure)
    (pc : Nat) (machine : Machine H) (word : UInt32) :
    (∀ (pair : PairOp) (r0 : Reg), ∃ machine',
      execute invoke procedure pc (.regImm pair r0 word) machine =
        .ok (some (pc + 1)) machine' ∧
      (∀ (load : LoadOp) (operand : MemoryOperand), load.mnemonic = pair.mnemonic →
        machine.operand? operand = some word →
          execute invoke procedure pc (.regMem load r0 operand) machine =
            .ok (some (pc + 1)) machine') ∧
      ∀ r1, machine.registers.value r1 = word →
        execute invoke procedure pc (.regReg pair r0 r1) machine =
          .ok (some (pc + 1)) machine') ∧
    ∀ (operand : MemoryOperand) (old : UInt32), machine.operand? operand = some old →
      ∀ (other : Machine H) (r : Reg), other.registers.value r = old →
        ∃ machine' other',
          execute invoke procedure pc (.regImm .cmp r word) other =
            .ok (some (pc + 1)) other' ∧
          machine' = { machine with
            registers := machine.registers.setFlags other'.registers.flags } ∧
          execute invoke procedure pc (.memImm .cmp operand word) machine =
            .ok (some (pc + 1)) machine' ∧
          ∀ r1, machine.registers.value r1 = word →
            execute invoke procedure pc (.memReg .cmp operand r1) machine =
              .ok (some (pc + 1)) machine' := by
  constructor
  · intro pair r0
    refine ⟨_, rfl, ?_, ?_⟩
    · intro load operand hmnemonic hword
      have hload := executeLoad_eq_ok hword load r0
      rw [LoadOp.eval_eq hmnemonic] at hload
      exact execute_regMem hload
    · rintro r1 rfl
      rfl
  · intro operand old hold other r hr
    subst hr
    have hcmp := executeStore_cmp_eq_ok hold word
    have hflags : (other.registers.setFlags (compareFlags (other.registers.value r) word)).flags =
        compareFlags (other.registers.value r) word :=
      RegisterFile.flags_setFlags
    refine ⟨_, _, rfl, ?_, execute_memImm hcmp, ?_⟩
    · exact congrArg
        (fun flags => { machine with registers := machine.registers.setFlags flags }) hflags.symm
    · rintro r1 rfl
      exact execute_memReg hcmp

/-- A machine with one word on its stack, and the same word in `ecx`. -/
def operandMachine : Machine ⟨Unit, Unit⟩ :=
  let machine : Machine ⟨Unit, Unit⟩ := (build ⟨16, 4⟩ ()).pushed 7
  { machine with registers := machine.registers.set .ecx 7 }

theorem execute_operandShapes_operandMachine :
    (∃ machine', execute (fun _ => pure ()) default 0 (.regImm .sub .ch 7) operandMachine =
        .ok (some 1) machine' ∧
      execute (fun _ => pure ()) default 0 (.regMem .sub .ch ⟨.esp, 0⟩) operandMachine =
        .ok (some 1) machine' ∧
      execute (fun _ => pure ()) default 0 (.regReg .sub .ch .cl) operandMachine =
        .ok (some 1) machine') ∧
    ∃ machine', execute (fun _ => pure ()) default 0 (.memReg .cmp ⟨.esp, 0⟩ .cl)
      operandMachine = .ok (some 1) machine' ∧ machine'.registers.flags = Flag.zero := by
  have hcl : operandMachine.registers.value .cl = 7 := by decide
  have hword : operandMachine.operand? ⟨.esp, 0⟩ = some 7 := by decide +kernel
  obtain ⟨hshapes, hleft⟩ := execute_operandShapes (fun _ => pure ()) default 0 operandMachine 7
  constructor
  · obtain ⟨machine', himm, hmem, hreg⟩ := hshapes .sub .ch
    exact ⟨machine', himm, hmem .sub ⟨.esp, 0⟩ rfl hword, hreg .cl hcl⟩
  · obtain ⟨machine', other', hother, rfl, -, hreg⟩ :=
      hleft ⟨.esp, 0⟩ 7 hword operandMachine .ecx (by decide)
    cases hother
    exact ⟨_, hreg .cl hcl, by decide⟩

end Machine

end X86Listing
