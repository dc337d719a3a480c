import X86Listing.Power

/-!
# JSON values

`Json` is the type of JSON values.  The only numbers with a meaning here are
natural numbers, written with digits alone; any other number is kept as it is
written.  The members of an object keep their order.

`field?` looks up a member, `below?` reads a natural number with a bound, and
`lastOfEach` drops the members that a later one of the same name replaces.
-/

namespace X86Listing

/-- A JSON value. -/
inductive Json where
  | null
  | bool (value : Bool)
  /-- A number that is written with digits alone. -/
  | natural (value : Nat)
  /-- Any other number, as it is written. -/
  | numeral (text : String)
  | string (value : String)
  | array (items : List Json)
  | object (members : List (String × Json))
deriving Inhabited

namespace Json

/-- The members that no later one of the same name replaces. -/
def lastOfEach : List (String × Json) → List (String × Json)
  | [] => []
  | member :: rest =>
    if (rest.lookup member.1).isSome then lastOfEach rest else member :: lastOfEach rest

/-- The value under a name in an object. -/
def field? (json : Json) (name : String) : Option Json :=
  match json with
  | object members => members.lookup name
  | _ => none

/-- The natural number that a value is. -/
def natural? : Json → Option Nat
  | natural n => some n
  | _ => none

/-- The natural number that a value is, if it is below a bound. -/
def below? (limit : Nat) (json : Json) : Option Nat :=
  json.natural?.filter fun n => n < limit

/-- The 8-bit number that a value is. -/
def uint8? (json : Json) : Option UInt8 :=
  (json.below? (2 ^ 8)).map UInt8.ofNat

/-- The 16-bit number that a value is. -/
def uint16? (json : Json) : Option UInt16 :=
  (json.below? (2 ^ 16)).map UInt16.ofNat

/-- The 32-bit number that a value is. -/
def uint32? (json : Json) : Option UInt32 :=
  (json.below? (2 ^ 32)).map UInt32.ofNat

/-- The text that a value is. -/
def string? : Json → Option String
  | string s => some s
  | _ => none

/-- The number of an 8-bit word. -/
def ofUInt8 (n : UInt8) : Json := natural n.toNat

/-- The number of a 16-bit word. -/
def ofUInt16 (n : UInt16) : Json := natural n.toNat

/-- The number of a 32-bit word. -/
def ofUInt32 (n : UInt32) : Json := natural n.toNat

@[simp]
theorem uint8?_ofUInt8 (n : UInt8) : (ofUInt8 n).uint8? = some n := by
  have h : n.toNat < 256 := n.toNat_lt
  simp [ofUInt8, uint8?, below?, natural?, Option.filter, h]

@[simp]
theorem uint16?_ofUInt16 (n : UInt16) : (ofUInt16 n).uint16? = some n := by
  have h : n.toNat < 65536 := n.toNat_lt
  simp [ofUInt16, uint16?, below?, natural?, Option.filter, h]

@[simp]
theorem uint32?_ofUInt32 (n : UInt32) : (ofUInt32 n).uint32? = some n := by
  have h : n.toNat < 4294967296 := n.toNat_lt
  simp [ofUInt32, uint32?, below?, natural?, Option.filter, h]

@[simp]
theorem string?_string (s : String) : (string s).string? = some s := rfl

end Json

end X86Listing
