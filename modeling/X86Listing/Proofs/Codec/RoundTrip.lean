import X86Listing.Codec.CompileError
import X86Listing.Codec.Procedure

/-!
# Reading back what was written

An instruction, a procedure and a compile error are each read back from what they are written
as: `Instruction.ofJson?_toJson`, `Procedure.ofJson?_toJson` and `CompileError.ofJson?_toJson`.

Many other values are read as the same instruction or procedure, since the members of an object
may stand in any order and among others.  `Json.Extends` relates the members of two such
objects, and `Instruction.ofJson?_of_extends` and `Procedure.ofJson?_of_extends` say that
reading goes by the members it looks up only.
-/

namespace X86Listing

/-! ## Members in another order and among others -/

namespace Json

/-- Every member that is found in a list is found in the other one. -/
def Extends (members others : List (String × Json)) : Prop :=
  ∀ name value, members.lookup name = some value → others.lookup name = some value

theorem mem_of_lookup_eq_some {members : List (String × Json)} {name : String} {value : Json}
    (h : members.lookup name = some value) : (name, value) ∈ members := by
  obtain ⟨before, behind, rfl, -⟩ := List.lookup_eq_some_iff.1 h
  exact List.mem_append_right before List.mem_cons_self

/-- A look-up among members of different names finds whichever of them has the name. -/
theorem lookup_eq_some_of_mem {members : List (String × Json)} {name : String} {value : Json}
    (hnames : (members.map Prod.fst).Nodup) (h : (name, value) ∈ members) :
    members.lookup name = some value := by
  obtain ⟨before, behind, rfl⟩ := List.append_of_mem h
  refine List.lookup_eq_some_iff.2 ⟨before, behind, rfl, fun member hmember => ?_⟩
  rw [List.map_append, List.nodup_append] at hnames
  have hne : member.1 ≠ name :=
    hnames.2.2 _ (List.mem_map_of_mem hmember) _ List.mem_cons_self
  exact bne_iff_ne.2 hne.symm

/-- Members that are put in another order, with further ones of other names among them. -/
theorem extends_of_perm {members more others : List (String × Json)}
    (hnames : (others.map Prod.fst).Nodup) (h : others.Perm (members ++ more)) :
    Extends members others := fun _ _ hlookup =>
  lookup_eq_some_of_mem hnames
    (h.mem_iff.2 (List.mem_append_left more (mem_of_lookup_eq_some hlookup)))

/-- Fields are read from the members of their names only. -/
theorem fields?_of_extends {members others : List (String × Json)} (h : Extends members others)
    {names : List String} {values : List Json}
    (hfields : fields? names (object members) = some values) :
    fields? names (object others) = some values := by
  simp only [fields?] at hfields ⊢
  induction names generalizing values with
  | nil => exact hfields
  | cons name names ih =>
    simp only [List.mapM_cons, Option.pure_def, Option.bind_eq_bind,
      Option.bind_eq_some_iff] at hfields ⊢
    obtain ⟨value, hvalue, rest, hrest, heq⟩ := hfields
    exact ⟨value, h _ _ hvalue, rest, ih hrest, heq⟩

end Json

/-- A list whose items are each read back is read back. -/
theorem mapM_map_eq_some {α β : Type} {write : α → β} {read : β → Option α}
    (h : ∀ item, read (write item) = some item) (items : List α) :
    (items.map write).mapM read = some items := by
  induction items with
  | nil => rfl
  | cons item items ih =>
    rw [List.map_cons, List.mapM_cons, h, ih]
    rfl

/-! ## Maps of names -/

namespace NameMap

/-- A look-up after the pairs of a list were put into a map, the names of the list in
increasing order. -/
theorem get?_foldl_insert {α : Type} {pairs : List (String × α)}
    (h : pairs.Pairwise fun a b => a.1 < b.1) (map : NameMap α) (name : String) :
    (pairs.foldl (fun map pair => map.insert pair.1 pair.2) map).get? name =
      (pairs.lookup name).or (map.get? name) := by
  induction pairs generalizing map with
  | nil => rfl
  | cons head rest ih =>
    obtain ⟨key, value⟩ := head
    obtain ⟨hhead, hrest⟩ := List.pairwise_cons.1 h
    rw [List.foldl_cons, ih hrest, get?_insert, lookup_cons_eq_ite]
    split
    · next heq =>
      subst heq
      -- The names behind the head are greater, so none of them replaces its value.
      have hnone : rest.lookup name = none :=
        List.lookup_eq_none_iff.2 fun entry hentry =>
          bne_iff_ne.2 fun heq => String.lt_irrefl name (heq ▸ hhead entry hentry)
      rw [hnone, Option.none_or, Option.some_or]
    · rfl

/-- The map of its own entries. -/
theorem ofList_entries {α : Type} (map : NameMap α) : ofList map.entries = map := by
  refine ext_get? fun name => ?_
  rw [ofList, get?_foldl_insert map.sorted, get?_empty, Option.or_none, get?]

@[simp]
theorem ofJson?_toJson (map : NameMap UInt32) : ofJson? map.toJson = some map := by
  rw [toJson, ofJson?, mapM_map_eq_some fun entry => by simp]
  exact congrArg some (ofList_entries map)

end NameMap

/-! ## Instructions, procedures and errors -/

namespace Instruction

/-- The values of the fields of an instruction, in the order of their names. -/
def fieldValues : Instruction → List Json
  | retn => []
  | call target => [.string target]
  | reg op r0 => [op.toJson, r0.toJson]
  | imm op v0 => [op.toJson, .ofUInt32 v0]
  | regReg op r0 r1 => [op.toJson, r0.toJson, r1.toJson]
  | shrd r0 r1 r2 => [.string "shrd", r0.toJson, r1.toJson, r2.toJson]
  | regImm op r0 v0 => [op.toJson, r0.toJson, .ofUInt32 v0]
  | regMem op r0 operand => [op.toJson, r0.toJson, operand.toJson]
  | lea r0 r1 r2 index v0 =>
    [.string "lea", r0.toJson, r1.toJson, r2.toJson, index.toJson, .ofUInt32 v0]
  | jumpTable condition v0 r0 v1 =>
    [condition.toJson, .ofUInt32 v0, r0.toJson, .ofUInt32 v1]
  | mem op operand => [op.toJson, operand.toJson]
  | memReg op operand r1 => [op.toJson, operand.toJson, r1.toJson]
  | memImm op operand v1 => [op.toJson, operand.toJson, .ofUInt32 v1]

/-- The members that an instruction is written with are found under their names. -/
theorem ofJson?_toJson_eq_ofFields? (instruction : Instruction) :
    ofJson? instruction.toJson = ofFields? instruction.tag instruction.fieldValues := by
  cases instruction <;> rfl

theorem ofFields?_fieldValues (instruction : Instruction) :
    ofFields? instruction.tag instruction.fieldValues = some instruction := by
  cases instruction <;>
    simp only [ofFields?, tag, shape, Shape.name, fieldValues, Json.string?_string,
      Json.uint32?_ofUInt32, RegOp.ofJson?_toJson, ImmOp.ofJson?_toJson, PairOp.ofJson?_toJson,
      LoadOp.ofJson?_toJson, WideOp.ofJson?_toJson, StoreOp.ofJson?_toJson,
      IndexOp.ofJson?_toJson, Condition.ofJson?_toJson, Reg.ofJson?_toJson,
      MemoryOperand.ofJson?_toJson] <;>
    rfl

@[simp]
theorem ofJson?_toJson (instruction : Instruction) :
    ofJson? instruction.toJson = some instruction := by
  rw [ofJson?_toJson_eq_ofFields?, ofFields?_fieldValues]

/-- An instruction is read from the members that its tag names only. -/
theorem ofJson?_of_extends {members others : List (String × Json)}
    (h : Json.Extends members others) {instruction : Instruction}
    (hread : ofJson? (.object members) = some instruction) :
    ofJson? (.object others) = some instruction := by
  simp only [ofJson?, tagged?, Option.bind_eq_bind, Option.bind_eq_some_iff, Option.pure_def,
    Option.some.injEq, Prod.exists] at hread ⊢
  obtain ⟨tag, _, ⟨shape, hshape, text, htext, heq⟩, names, hnames, fields, hfields, hread⟩ := hread
  cases heq
  exact ⟨tag, _, ⟨shape, h _ _ hshape, tag, htext, rfl⟩, names, hnames, fields,
    Json.fields?_of_extends h hfields, hread⟩

end Instruction

namespace Procedure

@[simp]
theorem ofJson?_toJson (procedure : Procedure) :
    ofJson? procedure.toJson = some procedure := by
  have hinstructions : instructionsOfJson?
      (.array (procedure.instructions.toList.map Instruction.toJson)) =
        some procedure.instructions.toList :=
    mapM_map_eq_some Instruction.ofJson?_toJson _
  simp [toJson, ofJson?, Json.fields?, List.lookup_cons, hinstructions]

/-- A procedure is read from the members of its four fields only. -/
theorem ofJson?_of_extends {members others : List (String × Json)}
    (h : Json.Extends members others) {procedure : Procedure}
    (hread : ofJson? (.object members) = some procedure) :
    ofJson? (.object others) = some procedure := by
  simp only [ofJson?, Option.bind_eq_bind, Option.bind_eq_some_iff] at hread ⊢
  obtain ⟨fields, hfields, hread⟩ := hread
  exact ⟨fields, Json.fields?_of_extends h hfields, hread⟩

end Procedure

namespace CompileError

@[simp]
theorem ofJson?_toJson (e : CompileError) : ofJson? e.toJson = some e := by
  simp [toJson, ofJson?, Json.fields?, List.lookup_cons, ErrorCategory.ofJson?]

end CompileError

/-- Instructions, procedures and errors are read back from what they are written as.  Whatever
value an instruction or a procedure is read from, it is the same after it was written and read
again, and it is also read from an object with the same members in another order or among
others. -/
theorem readBack_eq :
    (∀ instruction, Instruction.ofJson? (Instruction.toJson instruction) = some instruction) ∧
    (∀ procedure, Procedure.ofJson? (Procedure.toJson procedure) = some procedure) ∧
    (∀ e, CompileError.ofJson? (CompileError.toJson e) = some e) ∧
    (∀ json instruction, Instruction.ofJson? json = some instruction →
      Instruction.ofJson? instruction.toJson = some instruction ∧
      ∀ members others, json = .object members → Json.Extends members others →
        Instruction.ofJson? (.object others) = some instruction) ∧
    ∀ json procedure, Procedure.ofJson? json = some procedure →
      Procedure.ofJson? procedure.toJson = some procedure ∧
      ∀ members others, json = .object members → Json.Extends members others →
        Procedure.ofJson? (.object others) = some procedure := by
  refine ⟨Instruction.ofJson?_toJson, Procedure.ofJson?_toJson, CompileError.ofJson?_toJson, ?_, ?_⟩
  · rintro json instruction hread
    refine ⟨Instruction.ofJson?_toJson instruction, ?_⟩
    rintro members others rfl h
    exact Instruction.ofJson?_of_extends h hread
  · rintro json procedure hread
    refine ⟨Procedure.ofJson?_toJson procedure, ?_⟩
    rintro members others rfl h
    exact Procedure.ofJson?_of_extends h hread

/-- The members of a load, in no order, with a note in the load and one in its operand. -/
def loadMembers : List (String × Json) :=
  [("mem", .object [("note", .null), ("disp", .natural 8), ("base", .natural 5)]),
    ("r0", .natural 0), ("note", .string "load"), ("op", .string "mov"),
    ("shape", .string "reg_mem")]

/-- The members of a procedure with that load, and with a return written as an array. -/
def procedureMembers : List (String × Json) :=
  [("instructions", .array [.object loadMembers, .array [.string "retn"]]),
    ("labels", .object [("top", .natural 4)]), ("locals", .object [("arg", .natural 8)]),
    ("name", .string "f")]

theorem readBack_eq_loadMembers :
    Instruction.ofJson? (.object loadMembers) = some (.regMem .mov .eax ⟨.ebp, 8⟩) ∧
    Instruction.ofJson? (.object (("line", .natural 3) :: loadMembers)) =
      some (.regMem .mov .eax ⟨.ebp, 8⟩) ∧
    ∃ procedure, Procedure.ofJson? (.object procedureMembers) = some procedure ∧
      procedure.instructions = #[.regMem .mov .eax ⟨.ebp, 8⟩, .retn] ∧
      Procedure.ofJson? procedure.toJson = some procedure ∧
      Procedure.ofJson? (.object procedureMembers.reverse) = some procedure := by
  obtain ⟨-, -, -, hinstruction, hprocedure⟩ := readBack_eq
  have hload : Instruction.ofJson? (.object loadMembers) =
      some (.regMem .mov .eax ⟨.ebp, 8⟩) := rfl
  have hread : Procedure.ofJson? (.object procedureMembers) = some ⟨"f",
      NameMap.empty.insert "arg" 8, NameMap.empty.insert "top" 4,
      #[.regMem .mov .eax ⟨.ebp, 8⟩, .retn]⟩ := rfl
  have hline : Json.Extends loadMembers (("line", .natural 3) :: loadMembers) :=
    Json.extends_of_perm (by decide) (List.perm_append_singleton _ _).symm
  have hperm : procedureMembers.reverse.Perm (procedureMembers ++ []) := by simp
  have hreverse : Json.Extends procedureMembers procedureMembers.reverse :=
    Json.extends_of_perm (by decide) hperm
  obtain ⟨hagain, hothers⟩ := hprocedure _ _ hread
  exact ⟨hload, (hinstruction _ _ hload).2 _ _ rfl hline, _, hread, rfl, hagain,
    hothers _ _ rfl hreverse⟩

end X86Listing
