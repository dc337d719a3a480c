/-!
# Maps keyed by names

`NameMap α` is a finite map from names to values, kept as a list of entries in
strictly increasing order of the names.  The order of names is by code point,
which is also the order of their UTF-8 bytes.  A map has one list of entries
only, so two maps with the same look-ups are equal (`NameMap.ext_get?`).

There are three groups of facts.

* The entries stay in order: `insertEntry_pairwise` and `eraseEntry_pairwise`.
* The look-up after each operation: `get?_empty`, `get?_insert`, `get?_erase` and
  `get?_mapValues`.
* A look-up finds exactly the entries: `get?_eq_some_iff_mem`.
-/

namespace X86Listing

/-- A finite map from names to values, its entries in increasing order of
names. -/
structure NameMap (α : Type) where
  /-- The names with their values. -/
  entries : List (String × α)
  /-- The names increase strictly. -/
  sorted : entries.Pairwise fun a b => a.1 < b.1

namespace NameMap

variable {α β : Type}

/-! ## Entry lists -/

/-- Puts an entry into a list of entries in its place, in the stead of the entry
of the same name if there is one. -/
def insertEntry (name : String) (value : α) : List (String × α) → List (String × α)
  | [] => [(name, value)]
  | (key, old) :: rest =>
    if name < key then (name, value) :: (key, old) :: rest
    else if name = key then (name, value) :: rest
    else (key, old) :: insertEntry name value rest

/-- The entries under other names. -/
def eraseEntry (name : String) (entries : List (String × α)) : List (String × α) :=
  entries.filter fun entry => entry.1 ≠ name

theorem mem_insertEntry {name : String} {value : α} {entries : List (String × α)}
    {entry : String × α} (h : entry ∈ insertEntry name value entries) :
    entry = (name, value) ∨ entry ∈ entries := by
  induction entries with
  | nil => simpa [insertEntry] using h
  | cons head rest ih =>
    obtain ⟨key, old⟩ := head
    unfold insertEntry at h
    split at h
    · simpa using h
    · split at h <;> grind

theorem insertEntry_pairwise {entries : List (String × α)}
    (h : entries.Pairwise fun a b => a.1 < b.1) (name : String) (value : α) :
    (insertEntry name value entries).Pairwise fun a b => a.1 < b.1 := by
  induction entries with
  | nil => simp [insertEntry]
  | cons head rest ih =>
    obtain ⟨key, old⟩ := head
    obtain ⟨hhead, hrest⟩ := List.pairwise_cons.1 h
    unfold insertEntry
    split
    · next hlt =>
      refine List.pairwise_cons.2 ⟨fun entry he => ?_, h⟩
      rcases List.mem_cons.1 he with rfl | he
      · exact hlt
      · exact String.lt_trans hlt (hhead entry he)
    · next hlt =>
      split
      · next heq =>
        subst heq
        exact List.pairwise_cons.2 ⟨hhead, hrest⟩
      · next hne =>
        refine List.pairwise_cons.2 ⟨fun entry he => ?_, ih hrest⟩
        rcases mem_insertEntry he with rfl | he
        · rcases String.le_total (a := name) (b := key) with hle | hle
          · exact absurd (String.le_antisymm hle (String.not_lt.1 hlt)) hne
          · exact String.not_le.1 fun hge => hne (String.le_antisymm hge hle)
        · exact hhead entry he

theorem eraseEntry_pairwise {entries : List (String × α)}
    (h : entries.Pairwise fun a b => a.1 < b.1) (name : String) :
    (eraseEntry name entries).Pairwise fun a b => a.1 < b.1 :=
  h.filter _

/-! ## Operations -/

/-- The map without entries. -/
def empty : NameMap α := ⟨[], .nil⟩

instance : Inhabited (NameMap α) := ⟨empty⟩

/-- The value under a name. -/
def get? (map : NameMap α) (name : String) : Option α :=
  map.entries.lookup name

/-- Is there a value under the name? -/
def contains (map : NameMap α) (name : String) : Bool :=
  (map.get? name).isSome

/-- The map with a value put under a name, in the stead of the old value. -/
def insert (map : NameMap α) (name : String) (value : α) : NameMap α :=
  ⟨insertEntry name value map.entries, insertEntry_pairwise map.sorted name value⟩

/-- The map without the value under a name. -/
def erase (map : NameMap α) (name : String) : NameMap α :=
  ⟨eraseEntry name map.entries, eraseEntry_pairwise map.sorted name⟩

/-- The map that has the pairs of a list, the last one of each name. -/
def ofList (pairs : List (String × α)) : NameMap α :=
  pairs.foldl (fun map pair => map.insert pair.1 pair.2) empty

/-- The names, in increasing order. -/
def names (map : NameMap α) : List String :=
  map.entries.map Prod.fst

/-- The number of names. -/
def size (map : NameMap α) : Nat :=
  map.entries.length

/-- Has the map no entry? -/
def isEmpty (map : NameMap α) : Bool :=
  map.entries.isEmpty

/-- The map with every value changed by a function. -/
def mapValues (f : α → β) (map : NameMap α) : NameMap β :=
  ⟨map.entries.map fun entry => (entry.1, f entry.2), by
    rw [List.pairwise_map]
    exact map.sorted⟩

/-! ## Look-up -/

theorem lookup_cons_eq_ite (name key : String) (value : α) (rest : List (String × α)) :
    ((name, value) :: rest).lookup key = if key = name then some value else rest.lookup key := by
  by_cases h : key = name
  · simp [h]
  · have hb : (key == name) = false := by simpa using h
    simp [List.lookup_cons, hb, h]

theorem lookup_insertEntry (name key : String) (value : α) (entries : List (String × α)) :
    (insertEntry name value entries).lookup key =
      if key = name then some value else entries.lookup key := by
  induction entries with
  | nil => simp [insertEntry, lookup_cons_eq_ite]
  | cons head rest ih =>
    obtain ⟨first, old⟩ := head
    unfold insertEntry
    split
    · simp [lookup_cons_eq_ite]
    · split <;> simp only [lookup_cons_eq_ite, ih] <;> grind

theorem lookup_eraseEntry (name key : String) (entries : List (String × α)) :
    (eraseEntry name entries).lookup key =
      if key = name then none else entries.lookup key := by
  induction entries with
  | nil => simp [eraseEntry]
  | cons head rest ih =>
    obtain ⟨first, old⟩ := head
    unfold eraseEntry at ih ⊢
    rw [List.filter_cons]
    split <;> simp only [lookup_cons_eq_ite, ih] <;> grind

@[simp]
theorem get?_empty (name : String) : (empty : NameMap α).get? name = none := rfl

/-- A look-up after an insertion. -/
theorem get?_insert (map : NameMap α) (name key : String) (value : α) :
    (map.insert name value).get? key = if key = name then some value else map.get? key :=
  lookup_insertEntry name key value map.entries

@[simp]
theorem get?_insert_self (map : NameMap α) (name : String) (value : α) :
    (map.insert name value).get? name = some value := by
  simp [get?_insert]

/-- A look-up after a removal. -/
theorem get?_erase (map : NameMap α) (name key : String) :
    (map.erase name).get? key = if key = name then none else map.get? key :=
  lookup_eraseEntry name key map.entries

theorem lookup_map (f : α → β) (entries : List (String × α)) (name : String) :
    (entries.map fun entry => (entry.1, f entry.2)).lookup name =
      (entries.lookup name).map f := by
  induction entries with
  | nil => rfl
  | cons head rest ih =>
    obtain ⟨key, value⟩ := head
    rw [List.map_cons, lookup_cons_eq_ite, lookup_cons_eq_ite, ih]
    split <;> rfl

/-- A look-up after a function on the values. -/
@[simp]
theorem get?_mapValues (f : α → β) (map : NameMap α) (name : String) :
    (map.mapValues f).get? name = (map.get? name).map f :=
  lookup_map f map.entries name

theorem contains_iff (map : NameMap α) (name : String) :
    map.contains name = true ↔ ∃ value, map.get? name = some value := by
  simp [contains, Option.isSome_iff_exists]

theorem lookup_eq_some_iff_mem {entries : List (String × α)}
    (h : entries.Pairwise fun a b => a.1 < b.1) (name : String) (value : α) :
    entries.lookup name = some value ↔ (name, value) ∈ entries := by
  induction entries with
  | nil => simp
  | cons head rest ih =>
    obtain ⟨key, old⟩ := head
    obtain ⟨hhead, hrest⟩ := List.pairwise_cons.1 h
    by_cases hname : name = key
    · subst hname
      have hnot : (name, value) ∉ rest := fun hmem =>
        String.lt_irrefl name (hhead (name, value) hmem)
      simp [hnot, eq_comm]
    · simp [lookup_cons_eq_ite, hname, ih hrest]

/-- A look-up finds exactly the entries. -/
theorem get?_eq_some_iff_mem (map : NameMap α) (name : String) (value : α) :
    map.get? name = some value ↔ (name, value) ∈ map.entries :=
  lookup_eq_some_iff_mem map.sorted name value

theorem eq_of_mem_iff_mem {xs ys : List (String × α)}
    (hx : xs.Pairwise fun a b => a.1 < b.1) (hy : ys.Pairwise fun a b => a.1 < b.1)
    (h : ∀ entry, entry ∈ xs ↔ entry ∈ ys) : xs = ys := by
  induction xs generalizing ys with
  | nil =>
    cases ys with
    | nil => rfl
    | cons y ys => exact absurd ((h y).2 (List.mem_cons_self ..)) (List.not_mem_nil)
  | cons x xs ih =>
    cases ys with
    | nil => exact absurd ((h x).1 (List.mem_cons_self ..)) (List.not_mem_nil)
    | cons y ys =>
      obtain ⟨hx0, hx1⟩ := List.pairwise_cons.1 hx
      obtain ⟨hy0, hy1⟩ := List.pairwise_cons.1 hy
      have hxy : x = y := by
        rcases List.mem_cons.1 ((h x).1 (List.mem_cons_self ..)) with heq | hmem
        · exact heq
        · rcases List.mem_cons.1 ((h y).2 (List.mem_cons_self ..)) with heq | hmem'
          · exact heq.symm
          · exact absurd (String.lt_trans (hy0 x hmem) (hx0 y hmem')) (String.lt_irrefl _)
      subst hxy
      congr 1
      refine ih hx1 hy1 fun entry => ⟨fun he => ?_, fun he => ?_⟩
      · rcases List.mem_cons.1 ((h entry).1 (List.mem_cons_of_mem _ he)) with rfl | hmem
        · exact absurd (hx0 _ he) (String.lt_irrefl _)
        · exact hmem
      · rcases List.mem_cons.1 ((h entry).2 (List.mem_cons_of_mem _ he)) with rfl | hmem
        · exact absurd (hy0 _ he) (String.lt_irrefl _)
        · exact hmem

/-- Maps with the same look-ups are equal. -/
theorem ext_get? {a b : NameMap α} (h : ∀ name, a.get? name = b.get? name) : a = b := by
  obtain ⟨xs, hx⟩ := a
  obtain ⟨ys, hy⟩ := b
  have : xs = ys := eq_of_mem_iff_mem hx hy fun entry => by
    rw [← lookup_eq_some_iff_mem hx, ← lookup_eq_some_iff_mem hy]
    exact iff_of_eq (congrArg (· = some entry.2) (h entry.1))
  subst this
  rfl

end NameMap

end X86Listing
