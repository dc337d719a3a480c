import X86Listing.Proofs.Instruction.Mnemonic
import X86Listing.Proofs.Operand.Reading
import X86Listing.Proofs.Text.Order

/-!
# Lookups miss no spelling

A table that is in order is searched by halving, and the order for that is the one in which
the table is written.  `findIgnoreCase?_eq_some_iff` says that the search finds the entry of
a name in any letter case, and nothing else.

All tables of mnemonics and the table of registers are in order (`Mnemonics.FindsAll`), so no
spelling of a mnemonic or of a register is missed.  `lookup_complete` puts this together with
the laws of the comparison.
-/

namespace X86Listing

open Text (compareIgnoreCase findIgnoreCase? lowerByte utf8Bytes SameLetter SameLetters Increasing)

/-- The search of an ordered table finds the entry of a name in any letter case. -/
theorem findIgnoreCase?_eq_some_iff {α : Type} {table : Array (String × α)}
    (h : Increasing table) {name : List Char} {value : α} :
    findIgnoreCase? table name = some value ↔
      ∃ key, (key, value) ∈ table ∧ List.Forall₂ SameLetter key.toList name := by
  constructor
  · intro hfind
    obtain ⟨key, hmem, hname⟩ := Text.mem_of_findIgnoreCase? hfind
    exact ⟨key, hmem, Text.sameLetters_iff_forall₂.1 hname⟩
  · rintro ⟨key, hmem, hname⟩
    exact Text.findIgnoreCase?_of_mem h hmem (Text.sameLetters_iff_forall₂.2 hname)

/-- The table is in order, and a lookup finds every spelling of its mnemonics and nothing
else. -/
def Mnemonics.FindsAll {α : Type} (table : Mnemonics α) : Prop :=
  Increasing table ∧ ∀ name op, table.find? name = some op ↔
    ∃ key, (key, op) ∈ table ∧ List.Forall₂ SameLetter key.toList name

theorem Mnemonics.Ordered.findsAll {α : Type} {table : Mnemonics α} {mnemonic : α → String}
    (h : table.Ordered mnemonic) : table.FindsAll :=
  ⟨h.increasing, fun _ _ => findIgnoreCase?_eq_some_iff h.increasing⟩

/-- A register is read from a spelling of its name, if the word ends there. -/
theorem register?_eq_some_iff {text rest : List Char} {reg : Reg} :
    register? text = some (reg, rest) ↔
      ∃ key word after, (key, reg) ∈ Reg.spellings ∧ List.Forall₂ SameLetter key.toList word ∧
        text = word ++ after ∧ startsWith continuesIdentifier after = false ∧
        rest = skipSpaces after := by
  constructor
  · intro h
    obtain ⟨key, word, after, hmem, hword, rfl, hafter⟩ := register?_eq_some h
    rw [register?_of_mem hmem hword hafter] at h
    cases h
    exact ⟨key, word, after, hmem, Text.sameLetters_iff_forall₂.1 hword, rfl, hafter, rfl⟩
  · rintro ⟨key, word, after, hmem, hword, rfl, hafter, rfl⟩
    exact register?_of_mem hmem (Text.sameLetters_iff_forall₂.2 hword) hafter

/-- The comparison of names is a total preorder up to the case of letters, the same for
characters and for bytes.  In a table that increases strictly it finds exactly the entries,
and all tables of mnemonics and registers increase strictly. -/
theorem lookup_complete :
    ((∀ a b, (compareIgnoreCase a b).isLE = true ∨ (compareIgnoreCase b a).isLE = true) ∧
      (∀ a b c, (compareIgnoreCase a b).isLE = true → (compareIgnoreCase b c).isLE = true →
        (compareIgnoreCase a c).isLE = true) ∧
      (∀ a b, compareIgnoreCase b a = (compareIgnoreCase a b).swap) ∧
      (∀ a b, compareIgnoreCase a b = .eq ↔ List.Forall₂ SameLetter a b) ∧
      (∀ a b, compareIgnoreCase a b =
        compare ((utf8Bytes a).map lowerByte) ((utf8Bytes b).map lowerByte))) ∧
    (∀ (α : Type) (table : Array (String × α)), Increasing table → ∀ name value,
      findIgnoreCase? table name = some value ↔
        ∃ key, (key, value) ∈ table ∧ List.Forall₂ SameLetter key.toList name) ∧
    (retnTable.FindsAll ∧ callTable.FindsAll ∧ RegOp.table.FindsAll ∧ ImmOp.table.FindsAll ∧
      PairOp.registerTable.FindsAll ∧ shrdTable.FindsAll ∧ PairOp.valueTable.FindsAll ∧
      LoadOp.table.FindsAll ∧ leaTable.FindsAll ∧ Condition.table.FindsAll ∧
      WideOp.table.FindsAll ∧ StoreOp.table.FindsAll) ∧
    Increasing Reg.spellings ∧
    ∀ text reg rest, register? text = some (reg, rest) ↔
      ∃ key word after, (key, reg) ∈ Reg.spellings ∧ List.Forall₂ SameLetter key.toList word ∧
        text = word ++ after ∧ startsWith continuesIdentifier after = false ∧
        rest = skipSpaces after := by
  refine ⟨⟨Text.isLE_total, fun _ _ _ => Text.isLE_trans,
    fun a b => Text.compareIgnoreCase_swap b a, fun _ _ => Text.compareIgnoreCase_eq_iff_forall₂,
    Text.compareIgnoreCase_eq_compare_bytes⟩,
    fun _ _ h _ _ => findIgnoreCase?_eq_some_iff h, ?_, Reg.increasing_spellings,
    fun _ _ _ => register?_eq_some_iff⟩
  exact ⟨retnTable_ordered.findsAll, callTable_ordered.findsAll, RegOp.table_ordered.findsAll,
    ImmOp.table_ordered.findsAll, PairOp.registerTable_ordered.findsAll,
    shrdTable_ordered.findsAll, PairOp.valueTable_ordered.findsAll, LoadOp.table_ordered.findsAll,
    leaTable_ordered.findsAll, Condition.table_ordered.findsAll, WideOp.table_ordered.findsAll,
    StoreOp.table_ordered.findsAll⟩

/-- Names that share their first letters, in mixed case, and a name that only starts like
one. -/
theorem lookup_complete_jumps :
    (compareIgnoreCase "JA".toList "jBe".toList).isLE = true ∧
      (compareIgnoreCase "jBe".toList "JMP".toList).isLE = true ∧
      (compareIgnoreCase "JA".toList "JMP".toList).isLE = true ∧
      Increasing RegOp.table ∧
      findIgnoreCase? RegOp.table "jBe".toList = some (.jump .belowOrEqual) := by
  obtain ⟨⟨-, htrans, -⟩, hfind, -⟩ := lookup_complete
  have hleft : (compareIgnoreCase "JA".toList "jBe".toList).isLE = true := by decide
  have hright : (compareIgnoreCase "jBe".toList "JMP".toList).isLE = true := by decide
  have hincreasing : Increasing RegOp.table := RegOp.table_ordered.increasing
  refine ⟨hleft, hright, htrans _ _ _ hleft hright, hincreasing,
    (hfind RegOp RegOp.table hincreasing _ _).2 ⟨"jbe", by simp [RegOp.table], ?_⟩⟩
  exact Text.sameLetters_iff_forall₂.1 (by decide)

end X86Listing
