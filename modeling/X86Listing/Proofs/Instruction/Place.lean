import X86Listing.Proofs.Answer
import X86Listing.Proofs.Operand.Boundary

/-!
# The places of a name in an operand list

A name can stand in several places of an operand list, and what can be read differs from one to
the next.  Behind a register a value is a number or a local, behind the word `offset` it is a
label, and inside of brackets a register is expected in certain places only.

* `Place` lists these places, and `Expects` finds them in the text behind the mnemonic.
* `Decoder.operands_of_expects`: an operand that cannot be read is the error of the line.
* `Decoder.exists_expects_of_unresolved`: every error that names a symbol is of this kind.
-/

namespace X86Listing

/-! ## Definitions -/

/-- The places of an operand list where a name can stand. -/
inductive Place where
  /-- A register or a value. -/
  | operand
  /-- A part of an address that is no register. -/
  | part
  /-- A register, an address or a value behind a register. -/
  | source
  /-- A label behind the word `offset`. -/
  | label
deriving DecidableEq

namespace Place

/-- What is read at a place, apart from registers and addresses. -/
def read? (symbols : Symbols) : Place → Reader UInt32
  | operand => symbols.value?
  | part => symbols.value?
  | source => fun text => (number? text).or (symbols.local? text)
  | label => symbols.offset?

/-- Can a register stand at the place? -/
def TakesRegister (place : Place) : Prop :=
  place = operand ∨ place = source

/-- Neither a register nor a value is read. -/
structure Fails (symbols : Symbols) (place : Place) (text : List Char) : Prop where
  read?_eq : place.read? symbols text = none
  register?_eq : place.TakesRegister → register? text = none

/-- What an error says that was expected. -/
def expected : Place → String
  | operand => "a value"
  | part => "a value"
  | source => "a register, memory operand or value"
  | label => "an offset"

end Place

/-- The places of an operand list that are reached, and the text from there on. -/
inductive Expects (symbols : Symbols) (mnemonic : List Char) :
    List Char → Place → List Char → Prop where
  /-- The first operand. -/
  | first {text : List Char} (hne : text ≠ []) (hbracket : startsWith (· == '[') text = false)
      (hcall : callTable.find? mnemonic = none) : Expects symbols mnemonic text .operand text
  /-- The factor behind an index, `op v[r * _]`. -/
  | factor {text inner after : List Char} {v0 : UInt32} {r0 : Reg}
      (hbracket : startsWith (· == '[') text = false) (hregister : register? text = none)
      (hcall : callTable.find? mnemonic = none)
      (hvalue : symbols.value? text = some (v0, '[' :: inner))
      (hindex : register? (skipSpaces inner) = some (r0, '*' :: after)) :
      Expects symbols mnemonic text .part (skipSpaces after)
  /-- The displacement of a first operand in memory, `op [r + _]` or `op [r - _]`. -/
  | displacement {inner after : List Char} {base : Reg} {sign : Char}
      (hbase : register? (skipSpaces inner) = some (base, sign :: after))
      (hsign : sign = '+' ∨ sign = '-') :
      Expects symbols mnemonic ('[' :: inner) .part (skipSpaces after)
  /-- The operand behind one in memory, `op [r], _`. -/
  | second {text rest : List Char} {mem : MemoryOperand}
      (hmemory : Decoder.memory symbols text = .ok (mem, rest)) (hne : skipCommas rest ≠ []) :
      Expects symbols mnemonic text .operand (skipCommas rest)
  /-- The operand behind a register, `op r, _`. -/
  | source {text rest : List Char} {r0 : Reg} (hregister : register? text = some (r0, rest))
      (hne : skipCommas rest ≠ []) (hbracket : startsWith (· == '[') (skipCommas rest) = false)
      (hoffset : keyword? "offset".toList (skipCommas rest) = none) :
      Expects symbols mnemonic text .source (skipCommas rest)
  /-- The label of `op r, offset _`. -/
  | label {text rest after : List Char} {r0 : Reg}
      (hregister : register? text = some (r0, rest)) (hsecond : register? (skipCommas rest) = none)
      (hoffset : keyword? "offset".toList (skipCommas rest) = some after) :
      Expects symbols mnemonic text .label after
  /-- The second part of an address behind a register, `op r, [r + _]` or `op r, [r - _]`. -/
  | address {text rest inner after : List Char} {r0 base : Reg} {sign : Char} {place : Place}
      (hregister : register? text = some (r0, rest)) (hinner : skipCommas rest = '[' :: inner)
      (hbase : register? (skipSpaces inner) = some (base, sign :: after))
      (hsign : sign = '+' ∧ place = .operand ∨ sign = '-' ∧ place = .part) :
      Expects symbols mnemonic text place (skipSpaces after)
  /-- The third part of such an address, `op r, [r + r + _]` or `op r, [r + r * _]`. -/
  | index {text rest inner after after' : List Char} {r0 base index : Reg} {sign : Char}
      (hregister : register? text = some (r0, rest)) (hinner : skipCommas rest = '[' :: inner)
      (hbase : register? (skipSpaces inner) = some (base, '+' :: after))
      (hindex : register? (skipSpaces after) = some (index, sign :: after'))
      (hsign : sign = '+' ∨ sign = '*') :
      Expects symbols mnemonic text .part (skipSpaces after')

/-- A place of a line where nothing can be read, and the text from there on. -/
def FailsAt (symbols : Symbols) (line : List Char) (place : Place) (text : List Char) : Prop :=
  ∃ mnemonic rest, mnemonic? line = some (mnemonic, rest) ∧
    Expects symbols mnemonic rest place text ∧ place.Fails symbols text

/-- What a displacement reads behind its sign. -/
def Decoder.signed (f : UInt32 → UInt32) (symbols : Symbols) : Decoder UInt32 := fun text => do
  let (v, rest) ← value symbols (skipSpaces text)
  let rest ← punctuation ']' "`]`" rest
  return (f v, rest)

variable {symbols : Symbols} {mnemonic text text' : List Char} {place : Place} {name : String}

/-! ## An operand that fails -/

/-- No register stands at a part of an address. -/
theorem Place.part_fails (h : symbols.value? text = none) : part.Fails symbols text :=
  ⟨h, by rintro (⟨⟨⟩⟩ | ⟨⟨⟩⟩)⟩

/-- No register stands behind the word `offset`. -/
theorem Place.label_fails (h : symbols.offset? text = none) : label.Fails symbols text :=
  ⟨h, by rintro (⟨⟨⟩⟩ | ⟨⟨⟩⟩)⟩

namespace Decoder

theorem value_eq_ok_iff {v : UInt32} {rest : List Char} :
    value symbols text = .ok (v, rest) ↔ symbols.value? text = some (v, rest) := by
  unfold value
  cases symbols.value? text <;> simp

theorem value_eq_error (h : symbols.value? text = none) :
    value symbols text = .error (unreadable "a value" text) := by
  simp only [value, h]

theorem register_eq_ok_iff {r : Reg} {rest : List Char} :
    register text = .ok (r, rest) ↔ register? text = some (r, rest) := by
  unfold register
  cases register? text <;> simp

theorem punctuation_cons (c : Char) (expected : String) (rest : List Char) :
    punctuation c expected (c :: rest) = .ok (skipSpaces rest) := by
  simp [punctuation, skipChar?]

theorem punctuation_eq_ok {c : Char} {expected : String} {rest : List Char}
    (h : punctuation c expected text = .ok rest) :
    ∃ after, text = c :: after ∧ rest = skipSpaces after := by
  unfold punctuation at h
  split at h
  · next after hafter =>
    cases h
    exact ⟨after, skipChar?_eq_some.1 hafter, rfl⟩
  · cases h

theorem displacement_cases (symbols : Symbols) (text : List Char) :
    (∃ after, text = ']' :: after ∧ displacement symbols text = .ok (0, skipSpaces after)) ∨
      (∃ sign after f, text = sign :: after ∧ (sign = '+' ∨ sign = '-') ∧
        displacement symbols text = signed f symbols after) ∨
      ∃ expected found, displacement symbols text = .error (.malformed expected found) := by
  unfold displacement
  split
  · next after hafter => exact Or.inl ⟨after, skipChar?_eq_some.1 hafter, rfl⟩
  split
  · next after hafter =>
    exact Or.inr (Or.inl ⟨'+', after, fun v => v, skipChar?_eq_some.1 hafter, Or.inl rfl, rfl⟩)
  · next after _ hafter =>
    exact Or.inr (Or.inl ⟨'-', after, fun v => -v, skipChar?_eq_some.1 hafter, Or.inr rfl, rfl⟩)
  · exact Or.inr (Or.inr ⟨_, _, rfl⟩)

theorem displacement_eq_error {sign : Char} {after : List Char} (hsign : sign = '+' ∨ sign = '-')
    (h : symbols.value? (skipSpaces after) = none) :
    displacement symbols (sign :: after) = .error (unreadable "a value" (skipSpaces after)) := by
  rcases hsign with rfl | rfl <;> simp [displacement, skipChar?, value_eq_error h] <;> rfl

theorem index?_minus (rest : List Char) : index? ('-' :: rest) = none :=
  rfl

theorem indexSign_eq_ok {sign : Char} (hsign : sign = '+' ∨ sign = '*') (after : List Char) :
    ∃ op, indexSign (sign :: after) = .ok (op, skipSpaces after) := by
  rcases hsign with rfl | rfl
  · exact ⟨.add, rfl⟩
  · exact ⟨.mul, rfl⟩

theorem not_bracket_of_keyword? {rest : List Char} (h : keyword? "offset".toList text = some rest) :
    text ≠ [] ∧ startsWith (· == '[') text = false := by
  obtain ⟨keyword, after, rfl, hletters, -, -⟩ := keyword?_eq_some h
  have hne : keyword ≠ [] := ne_nil_of_sameLetters (by simp) hletters.symm
  have hkeyword := all_isAlpha_of_sameLetters (by simp) hletters.symm
  exact ⟨by simp [hne], (startsWith_letters hne hkeyword after).2.1⟩

theorem exists_bracket_of_memory {mem : MemoryOperand} {rest : List Char}
    (h : memory symbols text = .ok (mem, rest)) : ∃ inner, text = '[' :: inner := by
  obtain ⟨inside, hbracket, -⟩ := except_bind_eq_ok h
  obtain ⟨inner, htext, -⟩ := punctuation_eq_ok hbracket
  exact ⟨inner, htext⟩

theorem operands_memory (inner : List Char) :
    operands mnemonic symbols ('[' :: inner) = memoryFirst mnemonic symbols ('[' :: inner) :=
  rfl

theorem operands_register {r0 : Reg} {rest : List Char}
    (h : register? text = some (r0, rest)) :
    operands mnemonic symbols text = registerFirst mnemonic r0 symbols rest := by
  cases text with
  | nil => cases h
  | cons c tail =>
    have hbracket : startsWith (· == '[') (c :: tail) = false := by
      cases hbracket : startsWith (· == '[') (c :: tail) with
      | false => rfl
      | true =>
        obtain rfl : c = '[' := by simpa [startsWith] using hbracket
        rw [register?_eq_none rfl] at h
        cases h
    simp [operands, hbracket, h]

theorem operands_value (hne : text ≠ []) (hbracket : startsWith (· == '[') text = false)
    (hregister : register? text = none) (hcall : callTable.find? mnemonic = none) :
    operands mnemonic symbols text = valueFirst mnemonic symbols text := by
  simp [operands, hne, hbracket, hregister, hcall]

theorem registerFirst_address {r0 : Reg} {rest inner : List Char}
    (h : skipCommas rest = '[' :: inner) :
    registerFirst mnemonic r0 symbols rest =
      registerMemory mnemonic r0 symbols ('[' :: inner) := by
  have hregister : register? ('[' :: inner) = none := register?_eq_none rfl
  have hbracket : startsWith (· == '[') ('[' :: inner) = true := rfl
  simp only [registerFirst, h, hregister, hbracket, if_true]
  rfl

/-- An operand that cannot be read is the error of the line. -/
theorem operands_of_expects (h : Expects symbols mnemonic text place text')
    (hfails : place.Fails symbols text') :
    operands mnemonic symbols text = .error (unreadable place.expected text') := by
  obtain ⟨hread, hfirst⟩ := hfails
  cases h with
  | first hne hbracket hcall =>
    rw [operands_value hne hbracket (hfirst (Or.inl rfl)) hcall, valueFirst, value_eq_error hread]
    rfl
  | factor hbracket hregister hcall hvalue hindex =>
    have hne : text ≠ [] := by
      rintro rfl
      exact absurd (symbols.value?_advances hvalue).2 (Nat.not_lt_zero _)
    simp only [operands_value hne hbracket hregister hcall, valueFirst, value_eq_ok_iff.2 hvalue,
      skipChar?, if_true, register_eq_ok_iff.2 hindex, punctuation_cons, value_eq_error hread, bind,
      Except.bind, Place.expected]
  | displacement hbase hsign =>
    simp only [operands_memory, memoryFirst, memory, punctuation_cons, register_eq_ok_iff.2 hbase,
      displacement_eq_error hsign hread, bind, Except.bind, Place.expected]
  | second hmemory hne =>
    obtain ⟨inner, rfl⟩ := exists_bracket_of_memory hmemory
    simp only [operands_memory, memoryFirst, hmemory, hne, if_false, hfirst (Or.inl rfl),
      value_eq_error hread, bind, Except.bind, Place.expected]
  | source hregister hne hbracket hoffset =>
    simp only [Place.read?] at hread
    simp only [operands_register hregister, registerFirst, hne, if_false, hfirst (Or.inr rfl),
      hbracket, Bool.false_eq_true, registerValue, hoffset, hread, bind, Except.bind,
      Place.expected]
  | label hregister hsecond hoffset =>
    simp only [Place.read?] at hread
    obtain ⟨hne, hbracket⟩ := not_bracket_of_keyword? hoffset
    simp only [operands_register hregister, registerFirst, hne, if_false, hsecond,
      hbracket, Bool.false_eq_true, registerValue, hoffset, hread, bind, Except.bind,
      Place.expected]
  | address hregister hinner hbase hsign =>
    rw [operands_register hregister, registerFirst_address hinner, registerMemory,
      punctuation_cons]
    rcases hsign with ⟨rfl, rfl⟩ | ⟨rfl, rfl⟩
    · simp only [register_eq_ok_iff.2 hbase, index?, skipChar?, if_true, hfirst (Or.inl rfl),
        displacement_eq_error (Or.inl rfl) hread, bind, Except.bind, Place.expected]
    · simp only [register_eq_ok_iff.2 hbase, index?_minus,
        displacement_eq_error (Or.inr rfl) hread, bind, Except.bind, Place.expected]
  | @index _ _ _ _ after' _ _ _ sign hregister hinner hbase hindex hsign =>
    obtain ⟨op, hop⟩ := indexSign_eq_ok hsign after'
    rw [operands_register hregister, registerFirst_address hinner, registerMemory,
      punctuation_cons]
    simp only [register_eq_ok_iff.2 hbase, index?, skipChar?, if_true, hindex, hop,
      value_eq_error hread, bind, Except.bind, Place.expected]

/-! ## Errors that name a symbol -/

/-- An answer, or an error that names no symbol. -/
def Unnamed {α : Type} (answer : Except DecodeError α) : Prop :=
  ∀ name, answer ≠ .error (.unresolved name)

theorem Unnamed.bind {α β : Type} {x : Except DecodeError α} {f : α → Except DecodeError β}
    (hx : Unnamed x) (hf : ∀ a, x = .ok a → Unnamed (f a)) : Unnamed (x >>= f) := by
  intro name h
  rcases except_bind_eq_error h with h | ⟨a, ha, h⟩
  · exact hx name h
  · exact hf a ha name h

theorem select_unnamed {α : Type} (table : Mnemonics α) (mnemonic : List Char) (shape : Shape) :
    Unnamed (select table mnemonic shape) := by
  intro name h
  unfold select at h
  split at h <;> cases h

theorem finish_unnamed (text : List Char) : Unnamed (finish text) := by
  intro name h
  unfold finish at h
  split at h <;> cases h

theorem register_unnamed (text : List Char) : Unnamed (register text) := by
  intro name h
  unfold register at h
  split at h <;> cases h

theorem punctuation_unnamed (c : Char) (expected : String) (text : List Char) :
    Unnamed (punctuation c expected text) := by
  intro name h
  unfold punctuation at h
  split at h <;> cases h

theorem indexSign_unnamed (text : List Char) : Unnamed (indexSign text) := by
  intro name h
  unfold indexSign at h
  split at h <;> cases h

/-- The end of an operand list: the mnemonic is looked up. -/
theorem select_bind_unnamed {α : Type} (table : Mnemonics α) (mnemonic : List Char)
    (shape : Shape) (f : α → Instruction) :
    Unnamed (select table mnemonic shape >>= fun op => pure (f op)) :=
  (select_unnamed table mnemonic shape).bind fun _ _ _ h => by cases h

theorem finish_bind_unnamed {α : Type} (rest : List Char) (table : Mnemonics α)
    (mnemonic : List Char) (shape : Shape) (f : α → Instruction) :
    Unnamed (finish rest >>= fun _ => select table mnemonic shape >>= fun op => pure (f op)) :=
  (finish_unnamed rest).bind fun _ _ => select_bind_unnamed table mnemonic shape f

theorem value_eq_unresolved (h : value symbols text = .error (.unresolved name)) :
    symbols.value? text = none := by
  unfold value at h
  split at h
  · cases h
  · next hnone => exact hnone

theorem displacement_eq_unresolved (h : displacement symbols text = .error (.unresolved name)) :
    ∃ sign after, text = sign :: after ∧ (sign = '+' ∨ sign = '-') ∧
      symbols.value? (skipSpaces after) = none := by
  rcases displacement_cases symbols text with
    ⟨_, -, heq⟩ | ⟨sign, after, f, htext, hsign, heq⟩ | ⟨_, _, heq⟩ <;> rw [heq] at h
  · cases h
  · refine ⟨sign, after, htext, hsign, ?_⟩
    rcases except_bind_eq_error h with h | ⟨⟨v, rest⟩, -, h⟩
    · exact value_eq_unresolved h
    · exact absurd h ((punctuation_unnamed _ _ _).bind (fun _ _ _ h => by cases h) name)
  · cases h

theorem memory_eq_unresolved (h : memory symbols text = .error (.unresolved name)) :
    ∃ inner base sign after, text = '[' :: inner ∧
      register? (skipSpaces inner) = some (base, sign :: after) ∧ (sign = '+' ∨ sign = '-') ∧
      symbols.value? (skipSpaces after) = none := by
  rcases except_bind_eq_error h with h | ⟨rest, hbracket, h⟩
  · exact absurd h (punctuation_unnamed _ _ _ name)
  obtain ⟨inner, rfl, rfl⟩ := punctuation_eq_ok hbracket
  rcases except_bind_eq_error h with h | ⟨⟨base, rest⟩, hbase, h⟩
  · exact absurd h (register_unnamed _ name)
  rcases except_bind_eq_error h with h | ⟨⟨disp, rest'⟩, -, h⟩
  · obtain ⟨sign, after, rfl, hsign, hvalue⟩ := displacement_eq_unresolved h
    exact ⟨inner, base, sign, after, rfl, register_eq_ok_iff.1 hbase, hsign, hvalue⟩
  · cases h

theorem memoryFirst_eq_unresolved
    (h : memoryFirst mnemonic symbols text = .error (.unresolved name)) :
    ∃ place text', Expects symbols mnemonic text place text' ∧ place.Fails symbols text' := by
  rcases except_bind_eq_error h with h | ⟨⟨mem, rest⟩, hmemory, h⟩
  · obtain ⟨inner, base, sign, after, rfl, hbase, hsign, hvalue⟩ := memory_eq_unresolved h
    exact ⟨.part, _, .displacement hbase hsign, Place.part_fails hvalue⟩
  simp only at h
  split at h
  · exact absurd h (select_bind_unnamed _ _ _ _ name)
  next hne =>
  split at h
  · exact absurd h (finish_bind_unnamed _ _ _ _ _ name)
  next hregister =>
  rcases except_bind_eq_error h with h | ⟨⟨v1, rest'⟩, -, h⟩
  · exact ⟨.operand, _, .second hmemory hne, value_eq_unresolved h, fun _ => hregister⟩
  · exact absurd h (finish_bind_unnamed _ _ _ _ _ name)

theorem index?_eq_some {r : Reg} {rest : List Char} (h : index? text = some (r, rest)) :
    ∃ after, text = '+' :: after ∧ register? (skipSpaces after) = some (r, rest) := by
  unfold index? at h
  split at h
  · cases h
  · next after hafter => exact ⟨after, skipChar?_eq_some.1 hafter, h⟩

theorem indexSign_ok {op : IndexOp} {rest : List Char} (h : indexSign text = .ok (op, rest)) :
    ∃ sign after, text = sign :: after ∧ (sign = '+' ∨ sign = '*') ∧ rest = skipSpaces after := by
  unfold indexSign at h
  split at h
  · next after hafter =>
    cases h
    exact ⟨'+', after, skipChar?_eq_some.1 hafter, Or.inl rfl, rfl⟩
  · next after _ hafter =>
    cases h
    exact ⟨'*', after, skipChar?_eq_some.1 hafter, Or.inr rfl, rfl⟩
  · cases h

section Register

variable {r0 : Reg} {rest : List Char} (hregister : register? text = some (r0, rest))
include hregister

theorem registerMemory_eq_unresolved
    (h : registerMemory mnemonic r0 symbols (skipCommas rest) = .error (.unresolved name)) :
    ∃ place text', Expects symbols mnemonic text place text' ∧ place.Fails symbols text' := by
  rcases except_bind_eq_error h with h | ⟨inside, hbracket, h⟩
  · exact absurd h (punctuation_unnamed _ _ _ name)
  obtain ⟨inner, hinner, rfl⟩ := punctuation_eq_ok hbracket
  rcases except_bind_eq_error h with h | ⟨⟨base, behind⟩, hbase, h⟩
  · exact absurd h (register_unnamed _ name)
  have hbase := register_eq_ok_iff.1 hbase
  simp only at h
  split at h
  · next index behind' hindex =>
    obtain ⟨after, rfl, hindex⟩ := index?_eq_some hindex
    rcases except_bind_eq_error h with h | ⟨⟨op, behind⟩, hop, h⟩
    · exact absurd h (indexSign_unnamed _ name)
    obtain ⟨sign, after', rfl, hsign, rfl⟩ := indexSign_ok hop
    rcases except_bind_eq_error h with h | ⟨⟨v0, behind⟩, -, h⟩
    · exact ⟨.part, _, .index hregister hinner hbase hindex hsign,
        Place.part_fails (value_eq_unresolved h)⟩
    · exact absurd h
        ((punctuation_unnamed _ _ _).bind (fun _ _ => finish_bind_unnamed _ _ _ _ _) name)
  · next hindex =>
    rcases except_bind_eq_error h with h | ⟨⟨disp, behind⟩, -, h⟩
    · obtain ⟨sign, after, rfl, rfl | rfl, hvalue⟩ := displacement_eq_unresolved h
      · exact ⟨.operand, _, .address hregister hinner hbase (Or.inl ⟨rfl, rfl⟩), hvalue,
          fun _ => by simpa [index?, skipChar?] using hindex⟩
      · exact ⟨.part, _, .address hregister hinner hbase (Or.inr ⟨rfl, rfl⟩),
          Place.part_fails hvalue⟩
    · exact absurd h (finish_bind_unnamed _ _ _ _ _ name)

theorem registerFirst_eq_unresolved
    (h : registerFirst mnemonic r0 symbols rest = .error (.unresolved name)) :
    ∃ place text', Expects symbols mnemonic text place text' ∧ place.Fails symbols text' := by
  unfold registerFirst at h
  simp only at h
  split at h
  · exact absurd h (select_bind_unnamed _ _ _ _ name)
  next hne =>
  split at h
  · next r1 rest' hsecond =>
    split at h
    · exact absurd h (select_bind_unnamed _ _ _ _ name)
    · exact absurd h ((register_unnamed _).bind (fun _ _ => finish_bind_unnamed _ _ _ _ _) name)
  next hsecond =>
  split at h
  · exact registerMemory_eq_unresolved hregister h
  next hbracket =>
  rcases except_bind_eq_error h with h | ⟨⟨v0, rest'⟩, -, h⟩
  · unfold registerValue at h
    split at h
    · next after hoffset =>
      split at h
      · cases h
      · next hread =>
        exact ⟨.label, _, .label hregister hsecond hoffset, Place.label_fails hread⟩
    · next hoffset =>
      split at h
      · cases h
      · next hread =>
        exact ⟨.source, _, .source hregister hne (by simpa using hbracket) hoffset, hread,
          fun _ => hsecond⟩
  · exact absurd h (finish_bind_unnamed _ _ _ _ _ name)

end Register

theorem valueFirst_eq_unresolved (hne : text ≠ [])
    (hbracket : startsWith (· == '[') text = false) (hregister : register? text = none)
    (hcall : callTable.find? mnemonic = none)
    (h : valueFirst mnemonic symbols text = .error (.unresolved name)) :
    ∃ place text', Expects symbols mnemonic text place text' ∧ place.Fails symbols text' := by
  rcases except_bind_eq_error h with h | ⟨⟨v0, rest⟩, hvalue, h⟩
  · exact ⟨.operand, text, .first hne hbracket hcall, value_eq_unresolved h, fun _ => hregister⟩
  simp only at h
  split at h
  · next inner hinner =>
    obtain rfl := skipChar?_eq_some.1 hinner
    rcases except_bind_eq_error h with h | ⟨⟨r0, rest⟩, hindex, h⟩
    · exact absurd h (register_unnamed _ name)
    rcases except_bind_eq_error h with h | ⟨rest', hstar, h⟩
    · exact absurd h (punctuation_unnamed _ _ _ name)
    obtain ⟨after, rfl, rfl⟩ := punctuation_eq_ok hstar
    rcases except_bind_eq_error h with h | ⟨⟨v1, rest'⟩, -, h⟩
    · exact ⟨.part, _, .factor hbracket hregister hcall (value_eq_ok_iff.1 hvalue)
        (register_eq_ok_iff.1 hindex), Place.part_fails (value_eq_unresolved h)⟩
    · exact absurd h
        ((punctuation_unnamed _ _ _).bind (fun _ _ => finish_bind_unnamed _ _ _ _ _) name)
  · exact absurd h (finish_bind_unnamed _ _ _ _ _ name)

theorem callTarget_unnamed (text : List Char) : Unnamed (callTarget text) := by
  intro name h
  unfold callTarget at h
  split at h
  · cases h
  · exact absurd h ((finish_unnamed _).bind (fun _ _ _ h => by cases h) name)

/-- Every error that names a symbol comes from an operand that cannot be read. -/
theorem exists_expects_of_unresolved
    (h : operands mnemonic symbols text = .error (.unresolved name)) :
    ∃ place text', Expects symbols mnemonic text place text' ∧ place.Fails symbols text' := by
  unfold operands at h
  split at h
  · exact absurd h (select_bind_unnamed _ _ _ _ name)
  next hne =>
  split at h
  · exact memoryFirst_eq_unresolved h
  next hbracket =>
  split at h
  · next hregister => exact registerFirst_eq_unresolved hregister h
  next hregister =>
  split at h
  · exact absurd h (callTarget_unnamed _ name)
  · next hcall =>
    have hcall' : callTable.find? mnemonic = none := by simpa using hcall
    exact valueFirst_eq_unresolved hne (by simpa using hbracket) hregister hcall' h

end Decoder

/-! ## Lines -/

theorem FailsAt.decode_eq {line : List Char} (h : FailsAt symbols line place text) :
    decode symbols line = .error (Decoder.unreadable place.expected text) := by
  obtain ⟨mnemonic, rest, hmnemonic, hexpects, hfails⟩ := h
  rw [decode, hmnemonic]
  exact Decoder.operands_of_expects hexpects hfails

theorem exists_failsAt {line : List Char} (h : decode symbols line = .error (.unresolved name)) :
    ∃ place text, FailsAt symbols line place text := by
  unfold decode at h
  split at h
  · cases h
  · next mnemonic rest hmnemonic =>
    obtain ⟨place, text, hexpects, hfails⟩ := Decoder.exists_expects_of_unresolved h
    exact ⟨place, text, mnemonic, rest, hmnemonic, hexpects, hfails⟩

end X86Listing
