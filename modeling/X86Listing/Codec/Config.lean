import X86Listing.Json.Parser
import X86Listing.Json.Printer
import X86Listing.Machine.Config

/-!
# Machine sizes as JSON text

A configuration is written as an object with two members.  It is read from an
object in which each of them may be missing, or from an array of at most two
numbers; what is missing has the standard size.  Other members are passed over,
but a size that is given twice is an error.
-/

namespace X86Listing.Config

/-- A configuration as JSON. -/
def toJson (config : Config) : Json :=
  .object [("data_size", .natural config.dataSize), ("stack_words", .natural config.stackWords)]

/-- A configuration as JSON text. -/
def text (config : Config) : String :=
  config.toJson.render

/-- A size, which has to fit 64 bits. -/
def size? (json : Json) : Option Nat :=
  json.below? (2 ^ 64)

/-- The size under a name, or the standard size if there is none.  The name may
stand there only once. -/
def member? (name : String) (standard : Nat) (members : List (String × Json)) : Option Nat :=
  match members.filter fun member => member.1 = name with
  | [] => some standard
  | [(_, value)] => size? value
  | _ => none

/-- The configuration with the sizes among members. -/
def ofMembers? (members : List (String × Json)) : Option Config :=
  return ⟨← member? "data_size" standard.dataSize members,
    ← member? "stack_words" standard.stackWords members⟩

/-- The configuration with the sizes of a list. -/
def ofItems? (items : List Json) : Option Config :=
  match items with
  | [] => some standard
  | [dataSize] => return ⟨← size? dataSize, standard.stackWords⟩
  | [dataSize, stackWords] => return ⟨← size? dataSize, ← size? stackWords⟩
  | _ => none

/-- The configuration at the front of a text, and the text behind it. -/
def read? (text : List Char) : Option (Config × List Char) :=
  match text with
  | '\x7b' :: rest =>
    match Json.skipBlanks rest with
    | '\x7d' :: rest => some (standard, rest)
    | rest => do
      let (members, rest) ← Json.members? true false (rest.length + 1) rest
      return (← ofMembers? members, rest)
  | '[' :: rest =>
    match Json.skipBlanks rest with
    | ']' :: rest => some (standard, rest)
    | rest => do
      let (items, rest) ← Json.items? true (rest.length + 1) rest
      return (← ofItems? items, rest)
  | _ => none

/-- The configuration of a JSON text. -/
def ofText? (text : String) : Option Config :=
  match read? (Json.skipBlanks text.toList) with
  | some (config, rest) => if Json.skipBlanks rest = [] then some config else none
  | none => none

end X86Listing.Config
