import X86Listing.Proofs.Machine.Arithmetic
import X86Listing.Proofs.Machine.OperandShapes

/-!
# Multiplication and division of a pair of registers

`mul` and `div` work on the 64-bit number in `edx:eax` and a word of memory.  A product always
fits into the pair.  A quotient need not fit into `eax`, and then its high word is lost.

* `multiply_toNat` and `divide?_eq_some` are the operations on words, and
  `dividend_eq_iff` says which quotients fit.
* `execute_mul`, `execute_div` and `execute_div_zero` are the instructions, one equation for
  each way in which they end.
* `execute_wide` is what both leave in the registers, one by one and one after the other.
-/

namespace X86Listing

/-! ## Words -/

theorem toNat_pos_of_ne_zero {word : UInt32} (h : word ≠ 0) : 0 < word.toNat :=
  Nat.pos_of_ne_zero fun hzero => h (UInt32.toNat_inj.1 hzero)

/-- The two words of a product are the product. -/
theorem multiply_toNat (a b : UInt32) :
    2 ^ 32 * (multiply a b).2.toNat + (multiply a b).1.toNat = a.toNat * b.toNat := by
  have hfits : a.toNat * b.toNat < 2 ^ 32 * 2 ^ 32 :=
    Nat.mul_lt_mul'' a.toNat_lt b.toNat_lt
  have hhigh : a.toNat * b.toNat / 2 ^ 32 < 2 ^ 32 := Nat.div_lt_of_lt_mul hfits
  show 2 ^ 32 * (UInt32.ofNat (a.toNat * b.toNat / 2 ^ 32)).toNat +
    (UInt32.ofNat (a.toNat * b.toNat)).toNat = _
  rw [UInt32.toNat_ofNat', UInt32.toNat_ofNat', Nat.mod_eq_of_lt hhigh, Nat.div_add_mod]

/-- The quotient and the remainder of a pair, as numbers. -/
theorem divide?_eq_some {high low divisor : UInt32} (h : divisor ≠ 0) :
    ∃ quotient remainder, divide? high low divisor = some (quotient, remainder) ∧
      quotient.toNat = (2 ^ 32 * high.toNat + low.toNat) / divisor.toNat % 2 ^ 32 ∧
      remainder.toNat = (2 ^ 32 * high.toNat + low.toNat) % divisor.toNat := by
  have hfits : (2 ^ 32 * high.toNat + low.toNat) % divisor.toNat < 2 ^ 32 :=
    Nat.lt_trans (Nat.mod_lt _ (toNat_pos_of_ne_zero h)) divisor.toNat_lt
  refine ⟨_, _, if_neg h, UInt32.toNat_ofNat', ?_⟩
  rw [UInt32.toNat_ofNat', Nat.mod_eq_of_lt hfits]

/-- A dividend is found again in the low word of its quotient and in its remainder if its high
word is below the divisor.  This is when the quotient has no high word. -/
theorem dividend_eq_iff {high low divisor : UInt32} (h : divisor ≠ 0) {dividend : Nat}
    (hdividend : dividend = 2 ^ 32 * high.toNat + low.toNat) :
    dividend = dividend / divisor.toNat % 2 ^ 32 * divisor.toNat + dividend % divisor.toNat ↔
      high.toNat < divisor.toNat := by
  have hpos : 0 < divisor.toNat := toNat_pos_of_ne_zero h
  have hfits : high.toNat < divisor.toNat ↔ dividend / divisor.toNat < 2 ^ 32 := by
    rw [Nat.div_lt_iff_lt_mul hpos]
    have hlow := low.toNat_lt
    omega
  have hdivision := Nat.div_add_mod' dividend divisor.toNat
  rw [hfits]
  constructor
  · intro heq
    have hquotient : dividend / divisor.toNat % 2 ^ 32 = dividend / divisor.toNat :=
      Nat.eq_of_mul_eq_mul_right hpos (by omega)
    rw [← hquotient]
    exact Nat.mod_lt _ (by decide)
  · intro hlt
    rw [Nat.mod_eq_of_lt hlt, hdivision]

namespace Machine

variable {H : Host} {invoke : H.Function → Eval H Unit} {procedure : Procedure} {pc : Nat}
  {machine machine' : Machine H} {operand : MemoryOperand} {word : UInt32}

/-! ## Instructions -/

theorem execute_mem {op : WideOp} (h : executeWide op operand machine = .ok () machine') :
    execute invoke procedure pc (.mem op operand) machine = .ok (some (pc + 1)) machine' := by
  show EStateM.bind (executeWide op operand) _ machine = _
  simp only [EStateM.bind, h]
  rfl

theorem execute_mul (h : machine.operand? operand = some word) :
    execute invoke procedure pc (.mem .mul operand) machine =
      .ok (some (pc + 1)) { machine with
        registers := machine.registers.setPair
          (multiply (machine.registers.value .eax) word).1
          (multiply (machine.registers.value .eax) word).2 } :=
  execute_mem (address_loadWord_bind h _)

theorem execute_div {quotient remainder : UInt32} (h : machine.operand? operand = some word)
    (hdivide : divide? (machine.registers.value .edx) (machine.registers.value .eax) word =
      some (quotient, remainder)) :
    execute invoke procedure pc (.mem .div operand) machine =
      .ok (some (pc + 1)) { machine with
        registers := machine.registers.setPair quotient remainder } := by
  refine execute_mem ((address_loadWord_bind h _).trans ?_)
  simp only [bind, EStateM.bind, get_eq_ok, hdivide]
  rfl

theorem execute_div_zero (h : machine.operand? operand = some 0) :
    execute invoke procedure pc (.mem .div operand) machine = .error .divideByZero machine := by
  have hwide : executeWide .div operand machine = .error .divideByZero machine :=
    address_loadWord_bind h _
  show EStateM.bind (executeWide .div operand) _ machine = _
  simp only [EStateM.bind, hwide]

/-- What a division leaves in the registers. -/
theorem exists_execute_div (invoke : H.Function → Eval H Unit) (procedure : Procedure) (pc : Nat)
    (h : machine.operand? operand = some word) (hword : word ≠ 0) :
    ∃ registers,
      execute invoke procedure pc (.mem .div operand) machine =
        .ok (some (pc + 1)) { machine with registers } ∧
      machine.registers.SameButPair registers ∧
      (registers.value .edx).toNat = machine.registers.pair % word.toNat ∧
      (registers.value .eax).toNat = machine.registers.pair / word.toNat % 2 ^ 32 := by
  obtain ⟨quotient, remainder, hdivide, hquotient, hremainder⟩ := divide?_eq_some hword
  refine ⟨_, execute_div h hdivide, RegisterFile.sameButPair_setPair, ?_, ?_⟩
  · rw [RegisterFile.value_edx_setPair, hremainder, RegisterFile.pair]
  · rw [RegisterFile.value_eax_setPair, hquotient, RegisterFile.pair]

/-! ## Both operations -/

/-- An operand whose base is neither `eax` nor `edx` is the same behind both operations. -/
theorem operand?_of_sameButPair {registers : RegisterFile}
    (h : machine.registers.SameButPair registers) (heax : operand.base.slot ≠ Reg.eax.slot)
    (hedx : operand.base.slot ≠ Reg.edx.slot) :
    operand? { machine with registers } operand = machine.operand? operand := by
  have hbase : registers.value operand.base = machine.registers.value operand.base := by
    rw [RegisterFile.value, h _ heax hedx, RegisterFile.value]
  show machine.wordAt? (registers.value operand.base + operand.disp) = _
  rw [hbase, operand?]

/-- Multiplication and division by a word of memory.  Neither of them changes anything but `eax`
and `edx`.

The number in `edx:eax` after a multiplication is the product of `eax` and the word, and a
division by the same word, wherever it is found then, gives `eax` back and leaves nothing in
`edx`.  A division by a word other than zero leaves the remainder in `edx` and the low word of
the quotient in `eax`, so they tell the dividend if and only if `edx` was below the word.  A
division by zero faults. -/
theorem execute_wide (invoke : H.Function → Eval H Unit) (procedure : Procedure) (pc : Nat)
    {machine : Machine H} {operand : MemoryOperand} {word : UInt32}
    (h : machine.operand? operand = some word) :
    (∃ product,
      execute invoke procedure pc (.mem .mul operand) machine =
        .ok (some (pc + 1)) { machine with registers := product } ∧
      machine.registers.SameButPair product ∧
      product.pair = (machine.registers.value .eax).toNat * word.toNat ∧
      (word ≠ 0 → ∀ pc' operand',
        operand? { machine with registers := product } operand' = some word →
          ∃ registers,
            execute invoke procedure pc' (.mem .div operand')
                { machine with registers := product } =
              .ok (some (pc' + 1)) { machine with registers } ∧
            machine.registers.SameButPair registers ∧
            registers.value .eax = machine.registers.value .eax ∧
            registers.value .edx = 0)) ∧
      (word ≠ 0 → ∃ registers,
        execute invoke procedure pc (.mem .div operand) machine =
          .ok (some (pc + 1)) { machine with registers } ∧
        machine.registers.SameButPair registers ∧
        (registers.value .edx).toNat = machine.registers.pair % word.toNat ∧
        (registers.value .eax).toNat = machine.registers.pair / word.toNat % 2 ^ 32 ∧
        (machine.registers.pair =
            (registers.value .eax).toNat * word.toNat + (registers.value .edx).toNat ↔
          (machine.registers.value .edx).toNat < word.toNat)) ∧
      (word = 0 →
        execute invoke procedure pc (.mem .div operand) machine =
          .error .divideByZero machine) := by
  refine ⟨⟨_, execute_mul h, RegisterFile.sameButPair_setPair, ?_, ?_⟩, ?_, ?_⟩
  · rw [RegisterFile.pair_setPair, multiply_toNat]
  · intro hword pc' operand' h'
    obtain ⟨registers, hexecute, hsame, hedx, heax⟩ :=
      exists_execute_div invoke procedure pc' h' hword
    refine ⟨registers, hexecute, fun i hi hi' => ?_, UInt32.toNat_inj.1 ?_,
      UInt32.toNat_inj.1 ?_⟩
    · rw [hsame i hi hi', RegisterFile.sameButPair_setPair i hi hi']
    · rw [heax, RegisterFile.pair_setPair, multiply_toNat,
        Nat.mul_div_cancel _ (toNat_pos_of_ne_zero hword), Nat.mod_eq_of_lt (UInt32.toNat_lt _)]
    · rw [hedx, RegisterFile.pair_setPair, multiply_toNat, Nat.mul_mod_left]
      rfl
  · intro hword
    obtain ⟨registers, hexecute, hsame, hedx, heax⟩ :=
      exists_execute_div invoke procedure pc h hword
    refine ⟨registers, hexecute, hsame, hedx, heax, ?_⟩
    rw [hedx, heax]
    exact dividend_eq_iff hword rfl
  · rintro rfl
    exact execute_div_zero h

/-- A machine with a word on its stack and a number in `edx:eax`. -/
def wideMachine (word : UInt32) : Machine ⟨Unit, Unit⟩ :=
  let machine : Machine ⟨Unit, Unit⟩ := (build ⟨16, 4⟩ ()).pushed word
  { machine with registers := machine.registers.setPair 0xffffffff 9 }

theorem execute_wide_wideMachine :
    (∃ product registers,
      execute (fun _ => pure ()) default 0 (.mem .mul ⟨.esp, 0⟩) (wideMachine 7) =
        .ok (some 1) { wideMachine 7 with registers := product } ∧
      product.pair = 0xffffffff * 7 ∧
      execute (fun _ => pure ()) default 1 (.mem .div ⟨.esp, 0⟩)
          { wideMachine 7 with registers := product } =
        .ok (some 2) { wideMachine 7 with registers } ∧
      registers.value .eax = 0xffffffff ∧ registers.value .edx = 0) ∧
    (∃ registers,
      execute (fun _ => pure ()) default 0 (.mem .div ⟨.esp, 0⟩) (wideMachine 7) =
        .ok (some 1) { wideMachine 7 with registers } ∧
      (wideMachine 7).registers.pair ≠
        (registers.value .eax).toNat * 7 + (registers.value .edx).toNat) ∧
    execute (fun _ => pure ()) default 0 (.mem .div ⟨.esp, 0⟩) (wideMachine 0) =
      .error .divideByZero (wideMachine 0) := by
  have hword : (wideMachine 7).operand? ⟨.esp, 0⟩ = some 7 := by decide +kernel
  have hzero : (wideMachine 0).operand? ⟨.esp, 0⟩ = some 0 := by decide +kernel
  have heax : (wideMachine 7).registers.value .eax = 0xffffffff := by decide
  have hedx : (wideMachine 7).registers.value .edx = 9 := by decide
  obtain ⟨⟨product, hmul, hsame, hpair, hback⟩, hdiv, -⟩ :=
    execute_wide (fun _ => pure ()) default 0 hword
  obtain ⟨-, -, hfault⟩ := execute_wide (fun _ => pure ()) default 0 hzero
  rw [heax] at hpair
  refine ⟨⟨product, ?_⟩, ?_, hfault rfl⟩
  · have hword' := (operand?_of_sameButPair hsame (by decide) (by decide)).trans hword
    obtain ⟨registers, hrestore, -, heax', hedx'⟩ := hback (by decide) 1 ⟨.esp, 0⟩ hword'
    exact ⟨registers, hmul, hpair, hrestore, heax'.trans heax, hedx'⟩
  · obtain ⟨registers, hdiv, -, -, -, hiff⟩ := hdiv (by decide)
    refine ⟨registers, hdiv, fun heq => ?_⟩
    have hlt := hiff.1 heq
    rw [hedx] at hlt
    exact absurd hlt (by decide)

end Machine

end X86Listing
