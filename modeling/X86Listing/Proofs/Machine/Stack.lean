import X86Listing.Machine.Basic
import X86Listing.Proofs.Answer
import X86Listing.Proofs.Memory.Region

/-!
# The stack top

`esp` can hold any word, so a push or a pop has to find its four bytes inside the
stack first.  In whole numbers the stack takes the addresses from `base` on, up to
but not including `base + size`.  A stack `Fits` if its end is an address too, as it
is for every stack that `Stack.new` makes (`Stack.fits_new`).

* `Stack.push_eq_ok` and `Stack.pop_eq_ok_iff` say when a push and a pop succeed and
  what they do.
* `push_eq_ok`, `pop_eq_ok`, `push_of_eq_ok` and `pop_of_eq_ok` say the same of the machine.
-/

namespace X86Listing

/-! ## Pushes and pops -/

theorem toNat_sub_four {address : UInt32} (h : 4 ≤ address.toNat) :
    (address - 4).toNat = address.toNat - 4 :=
  UInt32.toNat_sub_of_le _ _ (UInt32.le_iff_toNat_le.2 h)

namespace Stack

variable {stack : Stack} {esp word : UInt32}

/-- The end of the stack is an address. -/
def Fits (stack : Stack) : Prop :=
  stack.base.toNat + stack.region.size < 2 ^ 32

theorem Fits.toNat_limit (h : stack.Fits) :
    stack.limit.toNat = stack.base.toNat + stack.region.size :=
  toNat_add_ofNat h

theorem toNat_limit_le (stack : Stack) :
    stack.limit.toNat ≤ stack.base.toNat + stack.region.size := by
  rw [limit, UInt32.toNat_add, UInt32.toNat_ofNat', Nat.add_mod_mod]
  exact Nat.mod_le ..

theorem fits_new (words : Nat) (base : UInt32) : (new words base).Fits := by
  have hbase := base.toNat_lt
  have hwords : min words (maxWords base) ≤ maxWords base := Nat.min_le_right ..
  have hmax : 4 * maxWords base ≤ 0xffffffff - base.toNat := Nat.mul_div_le ..
  show base.toNat + 4 * min words (maxWords base) < 2 ^ 32
  omega

/-- The stack after a push to a top with room below it. -/
def withWord (stack : Stack) (esp word : UInt32) : Stack :=
  ⟨stack.region.writeAt (esp.toNat - 4 - stack.base.toNat) (bytesOfWord word)⟩

/-- A push succeeds if the four bytes below the top are inside the stack. -/
theorem push_eq_ok (hlow : stack.base.toNat + 4 ≤ esp.toNat)
    (hhigh : esp.toNat ≤ stack.base.toNat + stack.region.size) (word : UInt32) :
    stack.push esp word = .ok (stack.withWord esp word, esp - 4) := by
  have htop : (esp - 4).toNat = esp.toNat - 4 := toNat_sub_four (by omega)
  have hroom : ¬ (esp < 4 ∨ esp - 4 < stack.base) := by
    have hfour : (4 : UInt32).toNat = 4 := rfl
    rw [UInt32.lt_iff_toNat_lt, UInt32.lt_iff_toNat_lt, htop]
    omega
  have hbase : stack.region.base.toNat = stack.base.toNat := rfl
  have hoffset : stack.region.offset? (esp - 4) 4 =
      some (esp.toNat - 4 - stack.base.toNat) := by
    rw [Region.offset?_eq_some (by omega) (by omega), htop, hbase]
  rw [push, if_neg hroom, Region.storeWord?, hoffset]
  rfl

/-- A pop reads the word at the top and moves the top behind it. -/
theorem pop_eq_ok_iff {esp' : UInt32} :
    stack.pop esp = .ok (word, esp') ↔
      stack.region.loadWord? esp = some word ∧ esp' = esp + 4 := by
  have hbound : ¬ 2 ^ 32 ≤ esp.toNat + 4 * 0 := Nat.not_le.2 esp.toNat_lt
  have hsame : esp + UInt32.ofNat (4 * 0) = esp := UInt32.add_zero esp
  simp only [pop, top, if_neg hbound, hsame]
  constructor
  · intro h
    by_cases hlow : esp < stack.base
    · rw [if_pos hlow] at h
      cases h
    rw [if_neg hlow] at h
    cases hload : stack.region.loadWord? esp with
    | none =>
      rw [hload] at h
      cases h
    | some word' =>
      rw [hload] at h
      cases h
      exact ⟨rfl, rfl⟩
  · rintro ⟨hload, rfl⟩
    have hlow : ¬ esp < stack.base := by
      have hbounds := (Region.bounds_of_loadWord? hload).1
      rw [UInt32.lt_iff_toNat_lt]
      exact Nat.not_lt.2 hbounds
    rw [if_neg hlow, hload]
    rfl

/-- A word above the top is read from its address, which does not wrap around. -/
theorem top_eq_ok {depth : Nat} (h : stack.top esp depth = .ok word) :
    esp.toNat + 4 * depth < 2 ^ 32 ∧
      stack.region.loadWord? (esp + UInt32.ofNat (4 * depth)) = some word := by
  unfold top at h
  by_cases hwrap : 2 ^ 32 ≤ esp.toNat + 4 * depth
  · rw [if_pos hwrap] at h
    cases h
  rw [if_neg hwrap] at h
  refine ⟨by omega, ?_⟩
  by_cases hlow : esp + UInt32.ofNat (4 * depth) < stack.base
  · rw [if_pos hlow] at h
    cases h
  rw [if_neg hlow] at h
  cases hload : stack.region.loadWord? (esp + UInt32.ofNat (4 * depth)) with
  | none =>
    rw [hload] at h
    cases h
  | some found =>
    rw [hload] at h
    cases h
    rfl

/-- The words above the top do not depend on the bytes below it. -/
theorem top_congr {stack' : Stack} (hbase : stack'.base = stack.base)
    (hload : ∀ address, esp ≤ address →
      stack'.region.loadWord? address = stack.region.loadWord? address) (depth : Nat) :
    stack'.top esp depth = stack.top esp depth := by
  unfold top
  by_cases hwrap : 2 ^ 32 ≤ esp.toNat + 4 * depth
  · rw [if_pos hwrap, if_pos hwrap]
  · have hle : esp ≤ esp + UInt32.ofNat (4 * depth) := by
      rw [UInt32.le_iff_toNat_le, toNat_add_ofNat (by omega)]
      omega
    rw [if_neg hwrap, if_neg hwrap]
    simp only [hbase, hload _ hle]

/-- The word that was pushed is at the new top. -/
theorem loadWord?_withWord (hlow : stack.base.toNat + 4 ≤ esp.toNat)
    (hhigh : esp.toNat ≤ stack.base.toNat + stack.region.size) (word : UInt32) :
    (stack.withWord esp word).region.loadWord? (esp - 4) = some word := by
  have htop : (esp - 4).toNat = esp.toNat - 4 := toNat_sub_four (by omega)
  have hbase : (stack.withWord esp word).region.base.toNat = stack.base.toNat := rfl
  have hsize : (stack.withWord esp word).region.size = stack.region.size := rfl
  rw [Region.loadWord?, Region.offset?_eq_some (by omega) (by omega), htop, hbase,
    Option.map_some]
  exact congrArg some (Region.wordAt_writeAt_self ..)

end Stack

namespace Machine

variable {H : Host} {machine machine' : Machine H} {word : UInt32}

/-- The machine after a push to a top with room below it. -/
def pushed (machine : Machine H) (word : UInt32) : Machine H :=
  { machine with
    stack := machine.stack.withWord machine.registers.esp word
    registers := machine.registers.setEsp (machine.registers.esp - 4) }

/-- The machine with the word at the stack top passed over. -/
def popped (machine : Machine H) : Machine H :=
  { machine with registers := machine.registers.setEsp (machine.registers.esp + 4) }

theorem push_eq_ok (hlow : machine.stack.base.toNat + 4 ≤ machine.registers.esp.toNat)
    (hhigh : machine.registers.esp.toNat ≤
      machine.stack.base.toNat + machine.stack.region.size) (word : UInt32) :
    push word machine = .ok () (machine.pushed word) := by
  simp only [push, bind, EStateM.bind, get_eq_ok, Stack.push_eq_ok hlow hhigh]
  rfl

theorem pop_eq_ok (h : machine.stack.region.loadWord? machine.registers.esp = some word) :
    pop machine = .ok word machine.popped := by
  have hpop : machine.stack.pop machine.registers.esp =
      .ok (word, machine.registers.esp + 4) := Stack.pop_eq_ok_iff.2 ⟨h, rfl⟩
  simp only [pop, bind, EStateM.bind, get_eq_ok, hpop]
  rfl

/-- A push leaves the bytes above the stack top. -/
theorem loadByte?_pushed {address : UInt32}
    (hlow : machine.stack.base.toNat + 4 ≤ machine.registers.esp.toNat)
    (haddress : machine.registers.esp ≤ address) :
    (machine.pushed word).stack.region.loadByte? address =
      machine.stack.region.loadByte? address := by
  have hle : machine.registers.esp.toNat ≤ address.toNat := UInt32.le_iff_toNat_le.1 haddress
  have hlength : (bytesOfWord word).length = 4 := rfl
  have hbase : machine.stack.region.base.toNat = machine.stack.base.toNat := rfl
  exact Region.loadByte?_writeAt_of_le (by omega)

/-- A push leaves the words above the stack top. -/
theorem loadWord?_pushed {address : UInt32}
    (hlow : machine.stack.base.toNat + 4 ≤ machine.registers.esp.toNat)
    (haddress : machine.registers.esp ≤ address) :
    (machine.pushed word).stack.region.loadWord? address =
      machine.stack.region.loadWord? address := by
  have hle : machine.registers.esp.toNat ≤ address.toNat := UInt32.le_iff_toNat_le.1 haddress
  have hlength : (bytesOfWord word).length = 4 := rfl
  have hbase : machine.stack.region.base.toNat = machine.stack.base.toNat := rfl
  exact Region.loadWord?_writeAt_of_le (by omega)

/-- A push that succeeds has stored its word at the new top and moved the top there. -/
theorem push_of_eq_ok (h : push word machine = .ok () machine') :
    ∃ region, machine.stack.region.storeWord? (machine.registers.esp - 4) word = some region ∧
      machine' = { machine with
        stack := ⟨region⟩
        registers := machine.registers.setEsp (machine.registers.esp - 4) } := by
  simp only [push, bind, EStateM.bind, get_eq_ok] at h
  cases hpush : machine.stack.push machine.registers.esp word with
  | error fault =>
    rw [hpush] at h
    cases h
  | ok result =>
    rw [hpush] at h
    cases h
    unfold Stack.push at hpush
    split at hpush
    · cases hpush
    · split at hpush
      · cases hpush
      · next region hregion =>
        cases hpush
        exact ⟨region, hregion, rfl⟩

/-- A pop that succeeds has done nothing but to move the top. -/
theorem pop_of_eq_ok (h : pop machine = .ok word machine') :
    machine' = machine.popped ∧
      machine.stack.region.loadWord? machine.registers.esp = some word := by
  simp only [pop, bind, EStateM.bind, get_eq_ok] at h
  cases hpop : machine.stack.pop machine.registers.esp with
  | error fault =>
    rw [hpop] at h
    cases h
  | ok result =>
    obtain ⟨word', esp'⟩ := result
    rw [hpop] at h
    cases h
    obtain ⟨hload, rfl⟩ := Stack.pop_eq_ok_iff.1 hpop
    exact ⟨rfl, hload⟩

end Machine

end X86Listing
