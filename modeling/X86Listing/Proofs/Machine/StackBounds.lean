import Mathlib.Tactic.SplitIfs
import X86Listing.Proofs.Machine.Stack

/-!
# Where a stack top can be

A procedure may load `esp` with any word, and pushes and pops find out by themselves whether
it can be used.  A push needs four bytes of the stack below the top and a pop four bytes from
the top on.  Neither asks that the top is a multiple of four away from the end.

* `Reachable` are the stacks there can be: those that `new` makes, and what the operations
  leave of them.  The end of each is an address (`Reachable.fits`).
* `Stack.push_eq_ite` and `Stack.pop_eq_ite` say for every top what a push and a pop answer.
* `Stack.loadByte?_withWord` is what a push does to the bytes, and `Stack.pop_withWord` takes
  it back.
* `Stack.push_pop_bounds` puts this together, with what a machine has after a fault.
-/

namespace X86Listing

namespace Stack

variable {stack stack' : Stack} {esp esp' word : UInt32}

/-! ## Stacks that can be reached -/

/-- The stacks that are made by `new` and changed by the operations on stacks. -/
inductive Reachable : Stack → Prop where
  | new (words : Nat) (base : UInt32) : Reachable (.new words base)
  | cleared {stack : Stack} (before : Reachable stack) : Reachable stack.cleared
  | push {stack stack' : Stack} {esp esp' word : UInt32} (before : Reachable stack)
      (h : stack.push esp word = .ok (stack', esp')) : Reachable stack'
  | storeByte {stack : Stack} {region : Region} {address : UInt32} {value : UInt8}
      (before : Reachable stack) (h : stack.region.storeByte? address value = some region) :
      Reachable ⟨region⟩
  | storeWord {stack : Stack} {region : Region} {address value : UInt32}
      (before : Reachable stack) (h : stack.region.storeWord? address value = some region) :
      Reachable ⟨region⟩

/-- A store into a stack leaves its place. -/
theorem Fits.store? (h : stack.Fits) {region : Region} {address : UInt32} {values : List UInt8}
    (hstore : stack.region.store? address values = some region) : Fits ⟨region⟩ := by
  obtain ⟨-, -, rfl⟩ := Region.store?_eq_some_iff.1 hstore
  exact h

theorem Reachable.fits (h : stack.Reachable) : stack.Fits := by
  induction h with
  | new words base => exact fits_new words base
  | cleared before ih => exact ih
  | push before hpush ih =>
    rw [Stack.push] at hpush
    split at hpush
    · cases hpush
    split at hpush
    · cases hpush
    · next region hstore =>
      cases hpush
      exact ih.store? hstore
  | storeByte before hstore ih => exact ih.store? hstore
  | storeWord before hstore ih => exact ih.store? hstore

/-! ## Pushes -/

/-- A push needs room below the top first and a top that is not behind the end then. -/
theorem push_eq_ite (h : stack.Fits) (esp word : UInt32) :
    stack.push esp word =
      if esp.toNat < stack.base.toNat + 4 then .error (.stackOverflow esp)
      else if esp.toNat ≤ stack.limit.toNat then .ok (stack.withWord esp word, esp - 4)
      else .error (.badAddress (esp - 4) 4) := by
  rw [h.toNat_limit]
  by_cases hlow : esp.toNat < stack.base.toNat + 4
  · have hover : esp < 4 ∨ esp - 4 < stack.base := by
      have hfour : (4 : UInt32).toNat = 4 := rfl
      rw [UInt32.lt_iff_toNat_lt, UInt32.lt_iff_toNat_lt]
      by_cases hlt : esp.toNat < 4
      · exact Or.inl (by omega)
      · rw [toNat_sub_four (by omega)]
        exact Or.inr (by omega)
    rw [push, if_pos hover, if_pos hlow]
  · rw [if_neg hlow]
    split
    · next hhigh => exact push_eq_ok (by omega) hhigh word
    · next hhigh =>
      have htop : (esp - 4).toNat = esp.toNat - 4 := toNat_sub_four (by omega)
      have hroom : ¬(esp < 4 ∨ esp - 4 < stack.base) := by
        have hfour : (4 : UInt32).toNat = 4 := rfl
        rw [UInt32.lt_iff_toNat_lt, UInt32.lt_iff_toNat_lt, htop]
        omega
      have hbase : stack.region.base.toNat = stack.base.toNat := rfl
      have hout : stack.region.storeWord? (esp - 4) word = none := by
        rw [Region.storeWord?, Region.offset?_eq_none (by omega), Option.map_none]
      rw [push, if_neg hroom, hout]

theorem push_eq_ok_iff (h : stack.Fits) :
    stack.push esp word = .ok (stack', esp') ↔
      (stack.base.toNat + 4 ≤ esp.toNat ∧ esp.toNat ≤ stack.limit.toNat) ∧
        stack' = stack.withWord esp word ∧ esp' = esp - 4 := by
  rw [push_eq_ite h]
  split_ifs with hlow hhigh
  · exact iff_of_false (by simp) (by omega)
  · rw [Except.ok.injEq, Prod.mk.injEq, eq_comm, @eq_comm _ _ esp']
    exact (and_iff_right ⟨by omega, hhigh⟩).symm
  · exact iff_of_false (by simp) (by omega)

theorem push_eq_stackOverflow_iff (h : stack.Fits) :
    stack.push esp word = .error (.stackOverflow esp) ↔
      esp.toNat < stack.base.toNat + 4 := by
  rw [push_eq_ite h]
  split_ifs with hlow hhigh
  · exact iff_of_true rfl hlow
  · exact iff_of_false (by simp) hlow
  · exact iff_of_false (by simp) hlow

theorem push_eq_badAddress_iff (h : stack.Fits) :
    stack.push esp word = .error (.badAddress (esp - 4) 4) ↔
      stack.base.toNat + 4 ≤ esp.toNat ∧ stack.limit.toNat < esp.toNat := by
  rw [push_eq_ite h]
  split_ifs with hlow hhigh
  · exact iff_of_false (by simp) (by omega)
  · exact iff_of_false (by simp) (by omega)
  · exact iff_of_true rfl ⟨by omega, by omega⟩

/-- A push writes the four bytes below the top. -/
theorem loadByte?_withWord (hlow : stack.base.toNat + 4 ≤ esp.toNat)
    (hhigh : esp.toNat ≤ stack.base.toNat + stack.region.size) (word address : UInt32) :
    (stack.withWord esp word).region.loadByte? address =
      if esp - 4 ≤ address ∧ address < esp then
        (bytesOfWord word)[address.toNat - (esp - 4).toNat]?
      else stack.region.loadByte? address := by
  have htop : (esp - 4).toNat = esp.toNat - 4 := toNat_sub_four (by omega)
  have hbase : stack.region.base.toNat = stack.base.toNat := rfl
  have hlength : (bytesOfWord word).length = 4 := rfl
  have hstore : stack.region.store? (esp - 4) (bytesOfWord word) =
      some (stack.withWord esp word).region := by
    refine Region.store?_eq_some_iff.2 ⟨by omega, by omega, ?_⟩
    rw [htop]
    rfl
  have hrange : (esp - 4).toNat + (bytesOfWord word).length = esp.toNat := by omega
  simp only [Region.loadByte?_store? hstore, hrange, UInt32.le_iff_toNat_le,
    UInt32.lt_iff_toNat_lt]

/-! ## Pops -/

/-- A pop needs a top that is not below the base first and a word above it then. -/
theorem pop_eq_ite (h : stack.Fits) (esp : UInt32) :
    stack.pop esp =
      if esp.toNat < stack.base.toNat then .error (.badAddress esp 4)
      else if esp.toNat + 4 ≤ stack.limit.toNat then
        .ok (stack.region.wordAt (esp.toNat - stack.base.toNat), esp + 4)
      else .error (.stackUnderflow esp) := by
  have hbound : ¬2 ^ 32 ≤ esp.toNat + 4 * 0 := Nat.not_le.2 esp.toNat_lt
  have hsame : esp + UInt32.ofNat (4 * 0) = esp := UInt32.add_zero esp
  have hbase : stack.region.base.toNat = stack.base.toNat := rfl
  rw [h.toNat_limit]
  simp only [pop, top, if_neg hbound, hsame, UInt32.lt_iff_toNat_lt]
  by_cases hlow : esp.toNat < stack.base.toNat
  · rw [if_pos hlow, if_pos hlow]
    rfl
  · rw [if_neg hlow, if_neg hlow, Region.loadWord?]
    by_cases hhigh : esp.toNat + 4 ≤ stack.base.toNat + stack.region.size
    · rw [if_pos hhigh, Region.offset?_eq_some (by omega) (by omega), hbase]
      rfl
    · rw [if_neg hhigh, Region.offset?_eq_none (by omega)]
      rfl

theorem exists_pop_eq_ok_iff (h : stack.Fits) :
    (∃ found esp', stack.pop esp = .ok (found, esp')) ↔
      stack.base.toNat ≤ esp.toNat ∧ esp.toNat + 4 ≤ stack.limit.toNat := by
  rw [pop_eq_ite h]
  split_ifs with hlow hhigh
  · exact iff_of_false (by simp) (by omega)
  · exact iff_of_true ⟨_, _, rfl⟩ ⟨by omega, hhigh⟩
  · exact iff_of_false (by simp) (by omega)

theorem pop_eq_badAddress_iff (h : stack.Fits) :
    stack.pop esp = .error (.badAddress esp 4) ↔ esp.toNat < stack.base.toNat := by
  rw [pop_eq_ite h]
  split_ifs with hlow hhigh
  · exact iff_of_true rfl hlow
  · exact iff_of_false (by simp) hlow
  · exact iff_of_false (by simp) hlow

theorem pop_eq_stackUnderflow_iff (h : stack.Fits) :
    stack.pop esp = .error (.stackUnderflow esp) ↔
      stack.base.toNat ≤ esp.toNat ∧ stack.limit.toNat < esp.toNat + 4 := by
  rw [pop_eq_ite h]
  split_ifs with hlow hhigh
  · exact iff_of_false (by simp) (by omega)
  · exact iff_of_false (by simp) (by omega)
  · exact iff_of_true rfl ⟨by omega, by omega⟩

/-- A pop reads four bytes, the lowest one first. -/
theorem exists_bytes_of_pop (h : stack.Fits) (hpop : stack.pop esp = .ok (word, esp')) :
    ∃ b0 b1 b2 b3, stack.region.loadByte? esp = some b0 ∧
      stack.region.loadByte? (esp + 1) = some b1 ∧ stack.region.loadByte? (esp + 2) = some b2 ∧
      stack.region.loadByte? (esp + 3) = some b3 ∧ word = wordOfBytes b0 b1 b2 b3 := by
  obtain ⟨hload, -⟩ := pop_eq_ok_iff.1 hpop
  obtain ⟨hlow, hhigh⟩ := Region.bounds_of_loadWord? hload
  have hwrap : esp.toNat + 3 < 2 ^ 32 := by
    have hbase : stack.region.base.toNat = stack.base.toNat := rfl
    rw [Fits] at h
    omega
  obtain ⟨b0, b1, b2, b3, h0, h1, h2, h3, hword⟩ :=
    Region.loadWord?_eq_wordOfBytes stack.region esp hlow hhigh hwrap
  exact ⟨b0, b1, b2, b3, h0, h1, h2, h3, Option.some.inj (hload.symm.trans hword)⟩

/-- A pop takes a push back. -/
theorem pop_withWord (hlow : stack.base.toNat + 4 ≤ esp.toNat)
    (hhigh : esp.toNat ≤ stack.base.toNat + stack.region.size) (word : UInt32) :
    (stack.withWord esp word).pop (esp - 4) = .ok (word, esp) :=
  pop_eq_ok_iff.2 ⟨loadWord?_withWord hlow hhigh word, (UInt32.sub_add_cancel esp 4).symm⟩

end Stack

/-! ## The stack of a machine -/

namespace Machine

variable {H : Host}

theorem push_eq (word : UInt32) (machine : Machine H) :
    push word machine =
      match machine.stack.push machine.registers.esp word with
      | .error fault => .error fault machine
      | .ok (stack, esp) =>
        .ok () { machine with stack, registers := machine.registers.setEsp esp } := by
  simp only [push, bind, EStateM.bind, get_eq_ok]
  cases machine.stack.push machine.registers.esp word <;> rfl

theorem pop_eq (machine : Machine H) :
    pop machine =
      match machine.stack.pop machine.registers.esp with
      | .error fault => .error fault machine
      | .ok (word, esp) =>
        .ok word { machine with registers := machine.registers.setEsp esp } := by
  simp only [pop, bind, EStateM.bind, get_eq_ok]
  cases machine.stack.pop machine.registers.esp <;> rfl

end Machine

/-! ## Pushes and pops for any top -/

namespace Stack

variable {stack : Stack}

/-- A push and a pop for any stack and any top, with whole numbers for addresses.  A push
succeeds if the top is between four bytes above the base and the end, and writes the four bytes
that are below the top then.  A pop succeeds if the top is between the base and four bytes below
the end, and reads the four bytes from the top on.  Both leave the top between the base and the
end, and a pop takes a push back.  Otherwise there is one of two faults, and a machine is left as
it was. -/
theorem push_pop_bounds (h : stack.Reachable) (esp word : UInt32) :
    let low := stack.base.toNat
    let high := stack.limit.toNat
    high = low + stack.region.size ∧
    ((∃ stack' esp', stack.push esp word = .ok (stack', esp')) ↔
      low + 4 ≤ esp.toNat ∧ esp.toNat ≤ high) ∧
    (stack.push esp word = .error (.stackOverflow esp) ↔ esp.toNat < low + 4) ∧
    (stack.push esp word = .error (.badAddress (esp - 4) 4) ↔
      low + 4 ≤ esp.toNat ∧ high < esp.toNat) ∧
    (∀ stack' esp', stack.push esp word = .ok (stack', esp') →
      esp'.toNat + 4 = esp.toNat ∧ low ≤ esp'.toNat ∧ esp'.toNat ≤ high ∧
      stack'.base = stack.base ∧ stack'.limit = stack.limit ∧
      (∀ address, stack'.region.loadByte? address =
        if esp' ≤ address ∧ address < esp then
          (bytesOfWord word)[address.toNat - esp'.toNat]?
        else stack.region.loadByte? address) ∧
      stack'.pop esp' = .ok (word, esp)) ∧
    ((∃ found esp', stack.pop esp = .ok (found, esp')) ↔
      low ≤ esp.toNat ∧ esp.toNat + 4 ≤ high) ∧
    (stack.pop esp = .error (.badAddress esp 4) ↔ esp.toNat < low) ∧
    (stack.pop esp = .error (.stackUnderflow esp) ↔
      low ≤ esp.toNat ∧ high < esp.toNat + 4) ∧
    (∀ found esp', stack.pop esp = .ok (found, esp') →
      esp'.toNat = esp.toNat + 4 ∧ low ≤ esp'.toNat ∧ esp'.toNat ≤ high ∧
      ∃ b0 b1 b2 b3, stack.region.loadByte? esp = some b0 ∧
        stack.region.loadByte? (esp + 1) = some b1 ∧
        stack.region.loadByte? (esp + 2) = some b2 ∧
        stack.region.loadByte? (esp + 3) = some b3 ∧ found = wordOfBytes b0 b1 b2 b3) ∧
    ∀ (H : Host) (machine : Machine H),
      machine.stack = stack → machine.registers.esp = esp →
        (Machine.push word machine =
          match stack.push esp word with
          | .error fault => .error fault machine
          | .ok (stack', esp') =>
            .ok () { machine with
              stack := stack', registers := machine.registers.setEsp esp' }) ∧
        (Machine.pop machine =
          match stack.pop esp with
          | .error fault => .error fault machine
          | .ok (found, esp') =>
            .ok found { machine with registers := machine.registers.setEsp esp' }) := by
  intro low high
  have hfits := h.fits
  have hhigh : high = low + stack.region.size := hfits.toNat_limit
  refine ⟨hhigh, ⟨?_, fun hroom => ?_⟩, push_eq_stackOverflow_iff hfits,
    push_eq_badAddress_iff hfits, fun stack' esp' hpush => ?_, exists_pop_eq_ok_iff hfits,
    pop_eq_badAddress_iff hfits, pop_eq_stackUnderflow_iff hfits, fun found esp' hpop => ?_,
    ?_⟩
  · rintro ⟨stack', esp', hpush⟩
    exact ((push_eq_ok_iff hfits).1 hpush).1
  · exact ⟨_, _, (push_eq_ok_iff hfits).2 ⟨hroom, rfl, rfl⟩⟩
  · obtain ⟨⟨hlow, hend⟩, rfl, rfl⟩ := (push_eq_ok_iff hfits).1 hpush
    have htop : (esp - 4).toNat = esp.toNat - 4 := toNat_sub_four (by omega)
    exact ⟨by omega, by omega, by omega, rfl, rfl,
      loadByte?_withWord hlow (by omega) word, pop_withWord hlow (by omega) word⟩
  · obtain ⟨hlow, hend⟩ := (exists_pop_eq_ok_iff hfits).1 ⟨_, _, hpop⟩
    obtain ⟨-, rfl⟩ := pop_eq_ok_iff.1 hpop
    have htop : (esp + 4).toNat = esp.toNat + 4 :=
      toNat_add_ofNat (Nat.lt_of_le_of_lt hend stack.limit.toNat_lt)
    exact ⟨htop, by omega, by omega, exists_bytes_of_pop hfits hpop⟩
  · rintro H machine rfl rfl
    exact ⟨Machine.push_eq word machine, Machine.pop_eq machine⟩

/-- Two slots.  A top that is not a multiple of four takes one word, and tops near the two ends of
the address space take none. -/
theorem push_pop_bounds_twoSlots :
    (∃ stack', (new 2 stackBase).push (stackBase + 5) 7 = .ok (stack', stackBase + 1) ∧
      stack'.pop (stackBase + 1) = .ok (7, stackBase + 5)) ∧
    (new 2 stackBase).pop (stackBase + 5) = .error (.stackUnderflow (stackBase + 5)) ∧
    (new 2 stackBase).push 2 7 = .error (.stackOverflow 2) ∧
    (new 2 stackBase).pop 2 = .error (.badAddress 2 4) ∧
    (new 2 stackBase).push 0xfffffffe 7 = .error (.badAddress 0xfffffffa 4) ∧
    (new 2 stackBase).pop 0xfffffffe = .error (.stackUnderflow 0xfffffffe) := by
  have hreach : (new 2 stackBase).Reachable := .new 2 stackBase
  obtain ⟨-, hok, -, -, hpushed, -, -, hunder, -⟩ := push_pop_bounds hreach (stackBase + 5) 7
  obtain ⟨-, -, hover, -, -, -, hbelow, -⟩ := push_pop_bounds hreach 2 7
  obtain ⟨-, -, -, hbehind, -, -, -, hwrap, -⟩ := push_pop_bounds hreach 0xfffffffe 7
  obtain ⟨stack', esp', hpush⟩ := hok.2 (by decide)
  obtain ⟨htop, -, -, -, -, -, hpop⟩ := hpushed _ _ hpush
  have hesp : esp' = stackBase + 1 := UInt32.toNat_inj.1 (Nat.add_right_cancel htop)
  rw [hesp] at hpush hpop
  exact ⟨⟨stack', hpush, hpop⟩, hunder.2 (by decide), hover.2 (by decide), hbelow.2 (by decide),
    hbehind.2 (by decide), hwrap.2 (by decide)⟩

end Stack

end X86Listing
