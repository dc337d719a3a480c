import X86Listing.Declaration
import X86Listing.Instruction.Decode
import X86Listing.Proofs.Answer

/-!
# More symbols change no answer

While a procedure is compiled its data segment grows, so an early line is decoded
with fewer data labels than a late one.  `Symbols.Extends old new` says that `new`
has the locals and the code labels of `old` and keeps the address of each data
label.  What was decoded with the old symbols is then decoded with the new ones to
the same answer.  Errors need not stay: a name can become known.

There is one short fact for each reader and each decoding step, put together by
`Keeps.bind`.  The results are `decode_keeps` for instructions and
`Declaration.decode_keeps` for declarations.

The order in which a reader tries its alternatives matters.  `Symbols.value?`
looks for a label last, so a label that becomes known cannot take the place of a
number or a local that was read before (`Symbols.value?_of_extends`).
-/

namespace X86Listing

/-! ## Readers -/

/-- The second symbols have the locals and the code labels of the first, and every
data label of the first at its address. -/
structure Symbols.Extends (old new : Symbols) : Prop where
  locals_eq : new.locals = old.locals
  labels_eq : new.labels = old.labels
  address?_eq : ∀ {name : String} {address : UInt32},
    old.data.address? name = some address → new.data.address? name = some address

namespace Symbols

variable {old new : Symbols}

theorem Extends.refl (symbols : Symbols) : Extends symbols symbols :=
  ⟨rfl, rfl, fun h => h⟩

theorem Extends.trans {a b c : Symbols} (h : Extends a b) (k : Extends b c) : Extends a c where
  locals_eq := k.locals_eq.trans h.locals_eq
  labels_eq := k.labels_eq.trans h.labels_eq
  address?_eq hname := k.address?_eq (h.address?_eq hname)

/-- Any data segment extends one without declarations. -/
theorem extends_blank (locals labels : NameMap UInt32) (data : DataSegment) :
    Extends ⟨locals, labels, .new 0⟩ ⟨locals, labels, data⟩ where
  locals_eq := rfl
  labels_eq := rfl
  address?_eq h := by cases h

theorem address?_of_extends (h : Extends old new) {segment : Option (List Char)}
    {name : String} {address : UInt32} (hold : old.address? segment name = some address) :
    new.address? segment name = some address := by
  -- A code label hides a data label of the same name in both tables.
  have hanywhere : ∀ a, (old.labels.get? name).or (old.data.address? name) = some a →
      (new.labels.get? name).or (new.data.address? name) = some a := by
    intro a ha
    rw [h.labels_eq]
    rw [Option.or_eq_some_iff] at ha ⊢
    exact ha.imp id fun ⟨hnone, hdata⟩ => ⟨hnone, h.address?_eq hdata⟩
  unfold address? at hold ⊢
  cases segment with
  | none => exact hanywhere _ hold
  | some segment =>
    by_cases hds : Text.SameLetters segment "ds".toList
    · simp only [hds, if_true] at hold ⊢
      exact h.address?_eq hold
    · by_cases hcs : Text.SameLetters segment "cs".toList
      · simp only [hds, hcs, if_true, if_false] at hold ⊢
        rwa [h.labels_eq]
      · simp only [hds, hcs, if_false] at hold ⊢
        exact hanywhere _ hold

theorem local?_of_extends (h : Extends old new) (text : List Char) :
    new.local? text = old.local? text := by
  simp only [local?, h.locals_eq]

theorem offset?_of_extends (h : Extends old new) {text : List Char} {r : UInt32 × List Char}
    (hold : old.offset? text = some r) : new.offset? text = some r := by
  unfold offset? at hold ⊢
  simp only at hold ⊢
  cases hname : identifier? (skipShort (skipSegment text).2) with
  | none =>
    rw [hname] at hold
    cases hold
  | some found =>
    rw [hname] at hold
    simp only at hold ⊢
    cases haddress : old.address? (skipSegment text).1 (String.ofList found.1) with
    | none =>
      rw [haddress] at hold
      cases hold
    | some address =>
      rw [haddress] at hold
      rw [address?_of_extends h haddress]
      exact hold

theorem value?_of_extends (h : Extends old new) {text : List Char} {r : UInt32 × List Char}
    (hold : old.value? text = some r) : new.value? text = some r := by
  unfold value? at hold ⊢
  rw [local?_of_extends h]
  rw [Option.or_eq_some_iff, Option.or_eq_some_iff] at hold ⊢
  rcases hold with hnumber | ⟨hnumber, hlocal | ⟨hlocal, hoffset⟩⟩
  · exact Or.inl hnumber
  · exact Or.inr ⟨hnumber, Or.inl hlocal⟩
  · exact Or.inr ⟨hnumber, Or.inr ⟨hlocal, offset?_of_extends h hoffset⟩⟩

end Symbols

/-! ## Instructions -/

namespace Decoder

variable {old new : Symbols}

theorem value_keeps (h : old.Extends new) (text : List Char) :
    Keeps (value old text) (value new text) := by
  unfold value
  cases hvalue : old.value? text with
  | none => exact .error _ _
  | some r =>
    rw [Symbols.value?_of_extends h hvalue]
    exact .refl _

theorem displacement_keeps (h : old.Extends new) (text : List Char) :
    Keeps (displacement old text) (displacement new text) := by
  unfold displacement
  cases skipChar? ']' text with
  | some rest => exact .refl _
  | none =>
    cases skipChar? '+' text with
    | some rest => exact (value_keeps h _).bind fun _ => .refl _
    | none =>
      cases skipChar? '-' text with
      | some rest => exact (value_keeps h _).bind fun _ => .refl _
      | none => exact .refl _

theorem memory_keeps (h : old.Extends new) (text : List Char) :
    Keeps (memory old text) (memory new text) :=
  (Keeps.refl _).bind fun _ => (Keeps.refl _).bind fun _ =>
    (displacement_keeps h _).bind fun _ => .refl _

theorem memoryFirst_keeps (h : old.Extends new) (mnemonic text : List Char) :
    Keeps (memoryFirst mnemonic old text) (memoryFirst mnemonic new text) := by
  refine (memory_keeps h _).bind fun ⟨mem, rest⟩ => ?_
  refine Keeps.ite (.refl _) ?_
  cases register? (skipCommas rest) with
  | some r => exact .refl _
  | none => exact (value_keeps h _).bind fun _ => .refl _

theorem registerMemory_keeps (h : old.Extends new) (mnemonic : List Char) (r0 : Reg)
    (text : List Char) :
    Keeps (registerMemory mnemonic r0 old text) (registerMemory mnemonic r0 new text) := by
  refine (Keeps.refl _).bind fun _ => (Keeps.refl _).bind fun ⟨r1, rest⟩ => ?_
  simp only
  cases index? rest with
  | some r => exact (Keeps.refl _).bind fun _ => (value_keeps h _).bind fun _ => .refl _
  | none => exact (displacement_keeps h _).bind fun _ => .refl _

theorem registerValue_keeps (h : old.Extends new) (text : List Char) :
    Keeps (registerValue old text) (registerValue new text) := by
  unfold registerValue
  cases keyword? "offset".toList text with
  | some rest =>
    cases hoffset : old.offset? rest with
    | none =>
      simp only [hoffset]
      exact .error _ _
    | some r =>
      simp only [hoffset, Symbols.offset?_of_extends h hoffset]
      exact .refl _
  | none =>
    simp only [Symbols.local?_of_extends h]
    exact .refl _

theorem registerFirst_keeps (h : old.Extends new) (mnemonic : List Char) (r0 : Reg)
    (text : List Char) :
    Keeps (registerFirst mnemonic r0 old text) (registerFirst mnemonic r0 new text) := by
  refine Keeps.ite (.refl _) ?_
  cases register? (skipCommas text) with
  | some r => exact .refl _
  | none =>
    exact Keeps.ite (registerMemory_keeps h _ _ _)
      ((registerValue_keeps h _).bind fun _ => .refl _)

theorem valueFirst_keeps (h : old.Extends new) (mnemonic text : List Char) :
    Keeps (valueFirst mnemonic old text) (valueFirst mnemonic new text) := by
  refine (value_keeps h _).bind fun ⟨v0, rest⟩ => ?_
  simp only
  cases skipChar? '[' rest with
  | none => exact .refl _
  | some rest =>
    exact (Keeps.refl _).bind fun _ => (Keeps.refl _).bind fun _ =>
      (value_keeps h _).bind fun _ => .refl _

theorem operands_keeps (h : old.Extends new) (mnemonic text : List Char) :
    Keeps (operands mnemonic old text) (operands mnemonic new text) := by
  refine Keeps.ite (.refl _) (Keeps.ite (memoryFirst_keeps h _ _) ?_)
  cases register? text with
  | some r => exact registerFirst_keeps h _ _ _
  | none => exact Keeps.ite (.refl _) (valueFirst_keeps h _ _)

end Decoder

/-- More symbols leave the instruction of a line as it was. -/
theorem decode_keeps {old new : Symbols} (h : old.Extends new) (line : List Char) :
    Keeps (decode old line) (decode new line) := by
  unfold decode
  cases mnemonic? line with
  | none => exact .refl _
  | some r => exact Decoder.operands_keeps h _ _

/-! ## Declarations -/

namespace Element

variable {old new : Symbols}

theorem value_keeps (h : old.Extends new) (directive : Directive) (text : List Char) :
    Keeps (value directive old text) (value directive new text) := by
  unfold value
  cases skipChar? '?' text with
  | some rest => exact .refl _
  | none =>
    cases skipOffset? directive text with
    | none => exact .refl _
    | some rest =>
      cases hoffset : old.offset? rest with
      | none =>
        simp only [hoffset]
        exact .error _ _
      | some r =>
        simp only [hoffset, Symbols.offset?_of_extends h hoffset]
        exact .refl _

theorem read_keeps (h : old.Extends new) (directive : Directive) (text : List Char) :
    Keeps (read directive old text) (read directive new text) := by
  unfold read
  cases text with
  | nil => exact .refl _
  | cons c rest => exact Keeps.ite (.refl _) ((value_keeps h _ _).map _)

theorem readAll_keeps (h : old.Extends new) (directive : Directive) (text : List Char) :
    Keeps (readAll directive old text) (readAll directive new text) := by
  intro bytes hbytes
  fun_induction readAll directive old text generalizing bytes with
  | case1 text hskip =>
    rw [readAll_eq, hskip]
    exact hbytes
  | case2 => cases hbytes
  | case3 => cases hbytes
  | case4 text c tail hskip first rest hread more hrest ih =>
    rw [readAll_eq, hskip]
    simp only [read_keeps h _ _ _ hread]
    rw [ih more hrest]
    exact hbytes

end Element

/-- More symbols leave the declaration of a line as it was. -/
theorem Declaration.decode_keeps {old new : Symbols} (h : old.Extends new)
    (line : List Char) : Keeps (decode old line) (decode new line) :=
  (Keeps.refl _).bind fun _ => (Element.readAll_keeps h _ _).bind fun _ => .refl _

end X86Listing
