import X86Listing.Json.Basic

/-!
# Fields and variants

A structure is written as an object with one member for each field, and read from
an object with at least these members, in any order, or from an array of the
fields in their order.  A choice without contents is written as its name, and
read from its name or from an object with its name as the only member.
-/

namespace X86Listing.Json

/-- The values of the fields of a structure, in their order. -/
def fields? (names : List String) : Json → Option (List Json)
  | object members => names.mapM fun name => members.lookup name
  | array items => if items.length = names.length then some items else none
  | _ => none

/-- Is the value one of no contents?  Within a tagged value an empty object is one
too. -/
def isEmptyContent (tagged : Bool) : Json → Bool
  | null => true
  | object [] => tagged
  | _ => false

/-- The name of a choice without contents. -/
def variant? (tagged : Bool) : Json → Option String
  | string name => some name
  | object [(name, content)] => if isEmptyContent tagged content then some name else none
  | _ => none

@[simp]
theorem variant?_string (tagged : Bool) (name : String) :
    variant? tagged (string name) = some name := rfl

end X86Listing.Json
