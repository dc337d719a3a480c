import X86Listing.Proofs.Machine.Layout

/-!
# One flat memory

The bytes of a machine are in two places, the data segment and the stack.  Loads and
stores try one after the other.  `Reachable.flatMemory` says that nobody can tell: the
memory is one map from addresses to bytes, words are four bytes in a row, and a store
changes the bytes it was told to and nothing else.

* `Config.Maps` says at which addresses there is a byte.  `Config.mapsAll_iff` is where
  the gap between the segment and the stack is needed: no word reaches across it.
* `Layout.loadByte_eq`, `Layout.loadWord_eq`, `Layout.store?_eq_some` and
  `Layout.store?_eq_none` are the accesses, one by one.
-/

namespace X86Listing

/-! ## Mapped addresses -/

namespace Config

/-- Is there a byte of the data segment at an address?  Addresses are whole numbers
here, so that those behind an address do not wrap around. -/
def MapsData (config : Config) (address : Nat) : Prop :=
  dataBase.toNat ≤ address ∧ address < dataBase.toNat + config.dataSize

/-- Is there a byte of the stack at an address? -/
def MapsStack (config : Config) (address : Nat) : Prop :=
  stackBase.toNat ≤ address ∧ address < stackBase.toNat + 4 * config.stackWords

/-- Is there a byte at an address? -/
def Maps (config : Config) (address : Nat) : Prop :=
  config.MapsData address ∨ config.MapsStack address

/-- Are there bytes at `len` addresses in a row? -/
def MapsAll (config : Config) (address len : Nat) : Prop :=
  ∀ i < len, config.Maps (address + i)

instance (config : Config) (address : Nat) : Decidable (config.Maps address) :=
  inferInstanceAs (Decidable ((_ ∧ _) ∨ _ ∧ _))

instance (config : Config) (address len : Nat) : Decidable (config.MapsAll address len) :=
  inferInstanceAs (Decidable (∀ i < len, config.Maps (address + i)))

theorem mapsAll_one {config : Config} {address : Nat} :
    config.MapsAll address 1 ↔ config.Maps address := by
  constructor
  · intro h
    exact h 0 Nat.one_pos
  · intro h i hi
    obtain rfl : i = 0 := Nat.lt_one_iff.1 hi
    exact h

/-- A few bytes in a row are all in the data segment or all in the stack. -/
theorem mapsAll_iff {config : Config} (hvalid : config.validate = .ok ()) {address len : Nat}
    (hpos : 0 < len) (hlen : len ≤ 4) :
    config.MapsAll address len ↔
      dataBase.toNat ≤ address ∧ address + len ≤ dataBase.toNat + config.dataSize ∨
      stackBase.toNat ≤ address ∧ address + len ≤ stackBase.toNat + 4 * config.stackWords := by
  obtain ⟨hdata, -⟩ := validate_eq_ok_iff.1 hvalid
  have hcode : codeBase.toNat = 0x400000 := rfl
  have hstack : stackBase.toNat = 0x800000 := rfl
  unfold MapsAll Maps MapsData MapsStack
  constructor
  · intro h
    have hfirst := h 0 hpos
    have hlast := h (len - 1) (by omega)
    omega
  · intro h i hi
    omega

end Config

namespace Machine

variable {H : Host} {config : Config} {machine machine' : Machine H}

/-! ## What flat memory is -/

/-- A store has put bytes at an address.  Every other byte is as before, and apart from
the bytes of its memory the machine is too. -/
structure Stored (machine : Machine H) (address : UInt32) (values : List UInt8)
    (machine' : Machine H) : Prop where
  byteAt?_eq : ∀ other, machine'.byteAt? other =
    if address.toNat ≤ other.toNat ∧ other.toNat < address.toNat + values.length
    then values[other.toNat - address.toNat]? else machine.byteAt? other
  same : ∃ data stack : Region, machine' =
    { machine with data := { machine.data with region := data }, stack := ⟨stack⟩ }

/-- The memory of a machine is one flat map of bytes. -/
structure FlatMemory (config : Config) (machine : Machine H) : Prop where
  disjoint : ∀ address, ¬ (config.MapsData address ∧ config.MapsStack address)
  /-- The code, between the data segment and the stack, cannot be accessed. -/
  code_unmapped : ∀ address, codeBase.toNat ≤ address → address < stackBase.toNat →
    ¬ config.Maps address
  stack_words : machine.stack.words = config.stackWords
  /-- The end of the stack is an address. -/
  stack_limit : machine.stack.limit.toNat = stackBase.toNat + 4 * config.stackWords
  loadByte_eq : ∀ address, if config.Maps address.toNat
    then ∃ byte, machine.byteAt? address = some byte ∧
      loadByte address machine = .ok byte machine
    else machine.byteAt? address = none ∧
      loadByte address machine = .error (.badAddress address 1) machine
  /-- A word is made of four bytes, the lowest one first. -/
  loadWord_eq : ∀ address, if config.MapsAll address.toNat 4
    then ∃ b0 b1 b2 b3, loadByte address machine = .ok b0 machine ∧
      loadByte (address + 1) machine = .ok b1 machine ∧
      loadByte (address + 2) machine = .ok b2 machine ∧
      loadByte (address + 3) machine = .ok b3 machine ∧
      loadWord address machine = .ok (wordOfBytes b0 b1 b2 b3) machine
    else loadWord address machine = .error (.badAddress address 4) machine
  storeByte_eq : ∀ address value, if config.Maps address.toNat
    then ∃ machine', storeByte address value machine = .ok () machine' ∧
      Stored machine address [value] machine'
    else storeByte address value machine = .error (.badAddress address 1) machine
  storeWord_eq : ∀ address value, if config.MapsAll address.toNat 4
    then ∃ machine', storeWord address value machine = .ok () machine' ∧
      Stored machine address (bytesOfWord value) machine'
    else storeWord address value machine = .error (.badAddress address 4) machine

/-! ## Stores of any number of bytes -/

/-- The machine after some bytes are stored from an address on. -/
def store? (machine : Machine H) (address : UInt32) (values : List UInt8) :
    Option (Machine H) :=
  match machine.data.region.store? address values with
  | some region => some { machine with data := { machine.data with region } }
  | none =>
    (machine.stack.region.store? address values).map fun region =>
      { machine with stack := ⟨region⟩ }

theorem storeByte?_eq (machine : Machine H) (address : UInt32) (value : UInt8) :
    machine.storeByte? address value = machine.store? address [value] := by
  unfold storeByte? store? DataSegment.storeByte?
  rw [Region.storeByte?_eq, Region.storeByte?_eq]
  cases machine.data.region.store? address [value] <;> rfl

theorem storeWord?_eq (machine : Machine H) (address value : UInt32) :
    machine.storeWord? address value = machine.store? address (bytesOfWord value) := by
  unfold storeWord? store? DataSegment.storeWord?
  rw [Region.storeWord?_eq, Region.storeWord?_eq]
  cases machine.data.region.store? address (bytesOfWord value) <;> rfl

/-! ## Single accesses -/

theorem loadByte_eq_ok {address : UInt32} {byte : UInt8}
    (h : machine.byteAt? address = some byte) :
    loadByte address machine = .ok byte machine := by
  simp only [loadByte, bind, EStateM.bind, get_eq_ok, h]
  rfl

theorem loadByte_eq_error {address : UInt32} (h : machine.byteAt? address = none) :
    loadByte address machine = .error (.badAddress address 1) machine := by
  simp only [loadByte, bind, EStateM.bind, get_eq_ok, h]
  rfl

theorem loadWord_eq_error {address : UInt32} (h : machine.wordAt? address = none) :
    loadWord address machine = .error (.badAddress address 4) machine := by
  simp only [loadWord, bind, EStateM.bind, get_eq_ok, h]
  rfl

/-- A word is loaded from the region that has all its bytes. -/
theorem loadWord_of_region (region : Region) {address : UInt32}
    (hlow : region.base.toNat ≤ address.toNat)
    (hhigh : address.toNat + 4 ≤ region.base.toNat + region.size)
    (hwrap : address.toNat + 3 < 2 ^ 32)
    (hbyte : ∀ other byte, region.loadByte? other = some byte →
      machine.byteAt? other = some byte)
    (hword : ∀ word, region.loadWord? address = some word →
      machine.wordAt? address = some word) :
    ∃ b0 b1 b2 b3, loadByte address machine = .ok b0 machine ∧
      loadByte (address + 1) machine = .ok b1 machine ∧
      loadByte (address + 2) machine = .ok b2 machine ∧
      loadByte (address + 3) machine = .ok b3 machine ∧
      loadWord address machine = .ok (wordOfBytes b0 b1 b2 b3) machine := by
  obtain ⟨b0, b1, b2, b3, h0, h1, h2, h3, hload⟩ :=
    region.loadWord?_eq_wordOfBytes address hlow hhigh hwrap
  exact ⟨b0, b1, b2, b3, loadByte_eq_ok (hbyte _ _ h0), loadByte_eq_ok (hbyte _ _ h1),
    loadByte_eq_ok (hbyte _ _ h2), loadByte_eq_ok (hbyte _ _ h3), loadWord_eq_ok (hword _ hload)⟩

namespace Layout

variable (h : Layout config machine) (hvalid : config.validate = .ok ())
include h

theorem data_base : machine.data.region.base = dataBase :=
  h.data.sound.base_eq

theorem data_size : machine.data.region.size = config.dataSize :=
  h.data.sound.capacity_eq

include hvalid

/-- Above the start of the code the segment has no byte. -/
theorem data_loadByte?_eq_none {address : UInt32} (hcode : codeBase.toNat ≤ address.toNat) :
    machine.data.loadByte? address = none := by
  obtain ⟨hfit, -⟩ := Config.validate_eq_ok_iff.1 hvalid
  rw [DataSegment.loadByte?, Region.loadByte?_eq_ite, h.data_base, h.data_size, if_neg]
  omega

theorem data_loadWord?_eq_none {address : UInt32} (hcode : codeBase.toNat ≤ address.toNat) :
    machine.data.loadWord? address = none := by
  obtain ⟨hfit, -⟩ := Config.validate_eq_ok_iff.1 hvalid
  rw [DataSegment.loadWord?, Region.loadWord?, Region.offset?_eq_none, Option.map_none]
  rw [h.data_base, h.data_size]
  omega

/-- A word of the stack is not taken from the data segment. -/
theorem wordAt?_of_stack {address word : UInt32}
    (hload : machine.stack.region.loadWord? address = some word) :
    machine.wordAt? address = some word := by
  have hlow : stackBase.toNat ≤ address.toNat := by
    rw [← h.stack_base]
    exact (Region.bounds_of_loadWord? hload).1
  have hcode : codeBase.toNat ≤ stackBase.toNat := by decide
  rw [wordAt?, h.data_loadWord?_eq_none hvalid (Nat.le_trans hcode hlow), Option.none_or, hload]

theorem loadByte_eq (address : UInt32) :
    if config.Maps address.toNat
    then ∃ byte, machine.byteAt? address = some byte ∧
      loadByte address machine = .ok byte machine
    else machine.byteAt? address = none ∧
      loadByte address machine = .error (.badAddress address 1) machine := by
  have hcode : codeBase.toNat = 0x400000 := rfl
  have hstack : stackBase.toNat = 0x800000 := rfl
  split
  · next hmaps =>
    suffices ∃ byte, machine.byteAt? address = some byte by
      obtain ⟨byte, hbyte⟩ := this
      exact ⟨byte, hbyte, loadByte_eq_ok hbyte⟩
    unfold byteAt?
    rcases hmaps with hdata | hstk
    · rw [DataSegment.loadByte?, Region.loadByte?_eq_ite, h.data_base, h.data_size,
        if_pos ⟨hdata.1, hdata.2⟩]
      exact ⟨_, rfl⟩
    · have hlow := hstk.1
      rw [h.data_loadByte?_eq_none hvalid (by omega), Option.none_or, Region.loadByte?_eq_ite,
        h.stack_base, h.stack_size, if_pos ⟨hlow, hstk.2⟩]
      exact ⟨_, rfl⟩
  · next hmaps =>
    suffices machine.byteAt? address = none from ⟨this, loadByte_eq_error this⟩
    unfold byteAt?
    rw [DataSegment.loadByte?, Region.loadByte?_eq_ite, h.data_base, h.data_size,
      if_neg fun hdata : _ ∧ _ => hmaps (Or.inl hdata), Option.none_or, Region.loadByte?_eq_ite,
      h.stack_base, h.stack_size, if_neg fun hstk : _ ∧ _ => hmaps (Or.inr hstk)]

theorem loadWord_eq (address : UInt32) :
    if config.MapsAll address.toNat 4
    then ∃ b0 b1 b2 b3, loadByte address machine = .ok b0 machine ∧
      loadByte (address + 1) machine = .ok b1 machine ∧
      loadByte (address + 2) machine = .ok b2 machine ∧
      loadByte (address + 3) machine = .ok b3 machine ∧
      loadWord address machine = .ok (wordOfBytes b0 b1 b2 b3) machine
    else loadWord address machine = .error (.badAddress address 4) machine := by
  obtain ⟨hfit, hend⟩ := Config.validate_eq_ok_iff.1 hvalid
  have hcode : codeBase.toNat = 0x400000 := rfl
  have hstack : stackBase.toNat = 0x800000 := rfl
  have hiff : config.MapsAll address.toNat 4 ↔ _ :=
    Config.mapsAll_iff hvalid (by decide) (Nat.le_refl 4)
  have hdata_base := h.data_base
  have hdata_size := h.data_size
  have hstack_base := h.stack_base
  have hstack_size := h.stack_size
  split
  · next hmaps =>
    rcases hiff.1 hmaps with ⟨hlow, hhigh⟩ | ⟨hlow, hhigh⟩
    · refine loadWord_of_region machine.data.region (by rw [hdata_base]; exact hlow)
        (by rw [hdata_base, hdata_size]; exact hhigh) (by omega) (fun other byte hother => ?_)
        (fun word hword => ?_)
      · rw [byteAt?, DataSegment.loadByte?, hother, Option.some_or]
      · rw [wordAt?, DataSegment.loadWord?, hword, Option.some_or]
    · refine loadWord_of_region machine.stack.region (by rw [hstack_base]; exact hlow)
        (by rw [hstack_base, hstack_size]; exact hhigh) (by omega) (fun other byte hother => ?_)
        (fun word hword => ?_)
      · have hinside : stackBase.toNat ≤ other.toNat := by
          rw [Region.loadByte?_eq_ite, hstack_base] at hother
          split at hother
          · next hin => exact hin.1
          · cases hother
        rw [byteAt?, h.data_loadByte?_eq_none hvalid (by omega), Option.none_or, hother]
      · exact h.wordAt?_of_stack hvalid hword
  · next hmaps =>
    rw [hiff] at hmaps
    apply loadWord_eq_error
    rw [wordAt?, DataSegment.loadWord?, Region.loadWord?, Region.loadWord?,
      Region.offset?_eq_none, Region.offset?_eq_none]
    · rfl
    · rw [hstack_base, hstack_size]
      exact fun hin => hmaps (Or.inr hin)
    · rw [hdata_base, hdata_size]
      exact fun hin => hmaps (Or.inl hin)

/-- A store whose bytes are all mapped. -/
theorem store?_eq_some {address : UInt32} (values : List UInt8) (hpos : 0 < values.length)
    (hlen : values.length ≤ 4) (hmaps : config.MapsAll address.toNat values.length) :
    ∃ machine', machine.store? address values = some machine' ∧
      Stored machine address values machine' := by
  obtain ⟨hfit, -⟩ := Config.validate_eq_ok_iff.1 hvalid
  have hcode : codeBase.toNat = 0x400000 := rfl
  have hstack : stackBase.toNat = 0x800000 := rfl
  rcases (Config.mapsAll_iff hvalid hpos hlen).1 hmaps with ⟨hlow, hhigh⟩ | ⟨hlow, hhigh⟩
  · have hregion : machine.data.region.store? address values = some _ :=
      Region.store?_eq_some_iff.2
        ⟨by rw [h.data_base]; exact hlow, by rw [h.data_base, h.data_size]; exact hhigh, rfl⟩
    refine ⟨_, by rw [store?, hregion], ⟨fun other => ?_, ⟨_, _, rfl⟩⟩⟩
    have hload := Region.loadByte?_store? hregion other
    unfold byteAt? DataSegment.loadByte?
    simp only [hload]
    split
    · next hin => rw [List.getElem?_eq_getElem (by omega), Option.some_or]
    · rfl
  · have hnone : machine.data.region.store? address values = none := by
      apply Region.store?_eq_none
      rw [h.data_base, h.data_size]
      omega
    have hregion : machine.stack.region.store? address values = some _ :=
      Region.store?_eq_some_iff.2
        ⟨by rw [h.stack_base]; exact hlow, by rw [h.stack_base, h.stack_size]; exact hhigh, rfl⟩
    refine ⟨_, by rw [store?, hnone, hregion, Option.map_some], ⟨fun other => ?_, ⟨_, _, rfl⟩⟩⟩
    have hload := Region.loadByte?_store? hregion other
    unfold byteAt?
    simp only [hload]
    split
    · next hin => rw [h.data_loadByte?_eq_none hvalid (by omega), Option.none_or]
    · rfl

/-- A store is refused if one of its bytes is not mapped. -/
theorem store?_eq_none {address : UInt32} (values : List UInt8) (hpos : 0 < values.length)
    (hlen : values.length ≤ 4)
    (hmaps : ¬ config.MapsAll address.toNat values.length) :
    machine.store? address values = none := by
  rw [Config.mapsAll_iff hvalid hpos hlen] at hmaps
  rw [store?, Region.store?_eq_none, Region.store?_eq_none]
  · rfl
  · rw [h.stack_base, h.stack_size]
    exact fun hin => hmaps (Or.inr hin)
  · rw [h.data_base, h.data_size]
    exact fun hin => hmaps (Or.inl hin)

theorem storeByte_eq (address : UInt32) (value : UInt8) :
    if config.Maps address.toNat
    then ∃ machine', storeByte address value machine = .ok () machine' ∧
      Stored machine address [value] machine'
    else storeByte address value machine = .error (.badAddress address 1) machine := by
  have hlength : [value].length = 1 := rfl
  rw [Machine.storeByte_eq, storeByte?_eq]
  split
  · next hmaps =>
    obtain ⟨machine', hstore, hstored⟩ :=
      h.store?_eq_some hvalid [value] (by omega) (by omega) (Config.mapsAll_one.2 hmaps)
    exact ⟨machine', by rw [hstore], hstored⟩
  · next hmaps =>
    rw [h.store?_eq_none hvalid [value] (by omega) (by omega) (mt Config.mapsAll_one.1 hmaps)]

theorem storeWord_eq (address value : UInt32) :
    if config.MapsAll address.toNat 4
    then ∃ machine', storeWord address value machine = .ok () machine' ∧
      Stored machine address (bytesOfWord value) machine'
    else storeWord address value machine = .error (.badAddress address 4) machine := by
  have hlength : (bytesOfWord value).length = 4 := rfl
  rw [Machine.storeWord_eq, storeWord?_eq]
  split
  · next hmaps =>
    obtain ⟨machine', hstore, hstored⟩ :=
      h.store?_eq_some hvalid (bytesOfWord value) (by omega) (by omega) hmaps
    exact ⟨machine', by rw [hstore], hstored⟩
  · next hmaps =>
    rw [h.store?_eq_none hvalid (bytesOfWord value) (by omega) (by omega) hmaps]

theorem isFlat : FlatMemory config machine where
  disjoint address := by
    obtain ⟨hfit, -⟩ := Config.validate_eq_ok_iff.1 hvalid
    have hcode : codeBase.toNat = 0x400000 := rfl
    have hstack : stackBase.toNat = 0x800000 := rfl
    unfold Config.MapsData Config.MapsStack
    omega
  code_unmapped address hlow hhigh := by
    obtain ⟨hfit, -⟩ := Config.validate_eq_ok_iff.1 hvalid
    unfold Config.Maps Config.MapsData Config.MapsStack
    omega
  stack_words := by
    rw [Stack.words, h.stack_size, Nat.mul_div_cancel_left _ (by decide)]
  stack_limit := by
    have hfits : machine.stack.Fits := by
      unfold Stack.Fits Stack.base
      rw [h.stack_base, h.stack_size]
      exact (Config.validate_eq_ok_iff.1 hvalid).2
    rw [hfits.toNat_limit, Stack.base, h.stack_base, h.stack_size]
  loadByte_eq := h.loadByte_eq hvalid
  loadWord_eq := h.loadWord_eq hvalid
  storeByte_eq := h.storeByte_eq hvalid
  storeWord_eq := h.storeWord_eq hvalid

end Layout

/-- Whatever operations, instructions, runs and calls have done to a machine of accepted
sizes, its memory is one flat map of bytes.  Host functions have nothing else than the
operations to work with. -/
theorem Reachable.flatMemory {invoke : H.Function → Eval H Unit}
    (hinvoke : ∀ function, Acts (invoke function)) (h : Reachable invoke config machine) :
    FlatMemory config machine :=
  (h.layout hinvoke).isFlat (h.operates hinvoke).1

/-- A machine of four slots with a host function. -/
def pushingMachine : Machine ⟨Unit, Unit⟩ :=
  (build ⟨16, 4⟩ ()).setFunction "g" (some ())

/-- The host function pushes a word, and then the stack is written over by a store that
crosses its slots. -/
theorem flatMemory_pushingMachine :
    ∃ machine, Leaves (step (fun _ => push 7) callingProcedure 1) pushingMachine
        (pushingMachine.pushed 7) ∧
      Leaves (storeWord 0x80000a 0x01020304) (pushingMachine.pushed 7) machine ∧
      FlatMemory ⟨16, 4⟩ machine := by
  have hpush : push 7 pushingMachine = .ok () (pushingMachine.pushed 7) :=
    push_eq_ok (by decide) (by decide) 7
  have hcall : step (fun _ => push 7) callingProcedure 1 pushingMachine =
      .ok (some 2) (pushingMachine.pushed 7) := by
    show EStateM.bind (push 7) (fun _ => pure (some 2)) pushingMachine = _
    simp only [EStateM.bind, hpush]
    rfl
  have hnew : Reachable (fun _ => push 7) ⟨16, 4⟩ (build ⟨16, 4⟩ () : Machine ⟨Unit, Unit⟩) :=
    .new () rfl
  have hset : Reachable (fun _ => push 7) ⟨16, 4⟩ pushingMachine :=
    hnew.change (.free _ _ _ _ _)
  have hcalled : Reachable (fun _ => push 7) ⟨16, 4⟩ (pushingMachine.pushed 7) :=
    hset.step callingProcedure 1 (Or.inl ⟨_, hcall⟩)
  have hleaves : Leaves (storeWord 0x80000a 0x01020304) (pushingMachine.pushed 7) _ :=
    Or.inl ⟨(), rfl⟩
  exact ⟨_, Or.inl ⟨_, hcall⟩, hleaves,
    Reachable.flatMemory (fun _ => acts_push 7) (hcalled.change (.storeWord _ _ hleaves))⟩

end Machine

end X86Listing
