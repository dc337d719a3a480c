import X86Listing.Instruction.Decode
import X86Listing.Proofs.Answer
import X86Listing.Proofs.Instruction.Spelling
import X86Listing.Proofs.Text.NameTable

/-!
# Tables of mnemonics are searched without loss

`Mnemonics.Ordered` holds of a table that lists operations under their mnemonics, in
order.  All tables are ordered.  An operation of an ordered table is then found under
every spelling of its mnemonic (`Decoder.select_eq_ok`), and nothing else is found
(`Decoder.of_select_eq_ok`).
-/

namespace X86Listing

open Text (SameLetters)

/-! ## The tables -/

/-- The table lists operations under their mnemonics, in order. -/
structure Mnemonics.Ordered {α : Type} (table : Mnemonics α) (mnemonic : α → String) : Prop where
  increasing : Text.Increasing table
  mnemonic_eq : ∀ entry ∈ table.toList, entry.1 = mnemonic entry.2

theorem retnTable_ordered : retnTable.Ordered fun _ => "retn" :=
  ⟨by decide, by decide⟩

theorem callTable_ordered : callTable.Ordered fun _ => "call" :=
  ⟨by decide, by decide⟩

theorem RegOp.table_ordered : RegOp.table.Ordered RegOp.mnemonic :=
  ⟨by decide, by decide⟩

theorem ImmOp.table_ordered : ImmOp.table.Ordered ImmOp.mnemonic :=
  ⟨by decide, by decide⟩

theorem PairOp.registerTable_ordered : PairOp.registerTable.Ordered PairOp.mnemonic :=
  ⟨by decide, by decide⟩

theorem PairOp.valueTable_ordered : PairOp.valueTable.Ordered PairOp.mnemonic :=
  ⟨by decide, by decide⟩

theorem shrdTable_ordered : shrdTable.Ordered fun _ => "shrd" :=
  ⟨by decide, by decide⟩

theorem LoadOp.table_ordered : LoadOp.table.Ordered LoadOp.mnemonic :=
  ⟨by decide, by decide⟩

theorem leaTable_ordered : leaTable.Ordered fun _ => "lea" :=
  ⟨by decide, by decide⟩

theorem Condition.table_ordered : Condition.table.Ordered Condition.mnemonic :=
  ⟨by decide, by decide⟩

theorem WideOp.table_ordered : WideOp.table.Ordered WideOp.mnemonic :=
  ⟨by decide, by decide⟩

theorem StoreOp.table_ordered : StoreOp.table.Ordered StoreOp.mnemonic :=
  ⟨by decide, by decide⟩

/-! ## The search -/

namespace Decoder

variable {α : Type} {table : Mnemonics α} {mnemonic : α → String} {op : α} {name : List Char}
  {shape : Shape}

theorem select_eq_ok (h : table.Ordered mnemonic) (hop : table.Lists op)
    (hname : SameLetters (mnemonic op).toList name) : select table name shape = .ok op := by
  obtain ⟨key, hmem⟩ := hop
  obtain rfl : key = mnemonic op := h.mnemonic_eq _ (Array.mem_toList_iff.2 hmem)
  have hfind : table.find? name = some op :=
    Text.findIgnoreCase?_of_mem h.increasing hmem hname
  rw [select, hfind]

theorem of_find? (h : table.Ordered mnemonic) (hfind : table.find? name = some op) :
    table.Lists op ∧ SameLetters (mnemonic op).toList name := by
  obtain ⟨key, hmem, hname⟩ := Text.mem_of_findIgnoreCase? hfind
  obtain rfl : key = mnemonic op := h.mnemonic_eq _ (Array.mem_toList_iff.2 hmem)
  exact ⟨⟨_, hmem⟩, hname⟩

theorem of_select_eq_ok (h : table.Ordered mnemonic) (hop : select table name shape = .ok op) :
    table.Lists op ∧ SameLetters (mnemonic op).toList name := by
  unfold select at hop
  split at hop
  · next op' hfind =>
    cases hop
    exact of_find? h hfind
  · cases hop

/-- The last step of decoding: the operation is found, and the instruction made. -/
theorem of_select_bind {f : α → Instruction} {instruction : Instruction}
    (h : table.Ordered mnemonic)
    (hselect : (select table name shape >>= fun op => pure (f op)) = .ok instruction) :
    ∃ op, table.Lists op ∧ SameLetters (mnemonic op).toList name ∧ f op = instruction := by
  obtain ⟨op, hop, hmake⟩ := except_bind_eq_ok hselect
  obtain ⟨hlists, hname⟩ := of_select_eq_ok h hop
  exact ⟨op, hlists, hname, Except.ok.inj hmake⟩

end Decoder

end X86Listing
