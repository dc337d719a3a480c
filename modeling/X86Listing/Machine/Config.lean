import X86Listing.AddressMap
import X86Listing.Text.Numeral

/-!
# Machine sizes

A configuration gives the sizes of the data segment and of the stack.  The data
segment has to end where the code starts or below, and the end of the stack has
to be an address.  `Config.validate` is this test.
-/

namespace X86Listing

/-- The sizes of a machine's memory. -/
structure Config where
  /-- The capacity of the data segment in bytes. -/
  dataSize : Nat
  /-- The number of slots of the stack. -/
  stackWords : Nat
deriving DecidableEq, Repr

/-- Why sizes were refused. -/
inductive ConfigError where
  /-- The data segment would reach into the code. -/
  | dataOverlapsCode (dataSize : Nat)
  /-- The end of the stack would be no address. -/
  | stackTooLarge (stackWords : Nat)
deriving DecidableEq, Repr

namespace ConfigError

open Text (hex)

/-- The text of a refusal. -/
def message : ConfigError → String
  | dataOverlapsCode size => "data segment of " ++ hex size ++ " bytes overlaps the code region"
  | stackTooLarge words =>
    "stack of " ++ hex words ++ " words runs past the end of the address space"

/-- The name of the kind of a refusal. -/
def kind : ConfigError → String
  | dataOverlapsCode _ => "DataOverlapsCode"
  | stackTooLarge _ => "StackTooLarge"

end ConfigError

namespace Config

/-- The sizes of a machine that nobody configured. -/
def standard : Config := ⟨2048, 2048⟩

/-- Refuses sizes that do not fit the address map. -/
def validate (config : Config) : Except ConfigError Unit :=
  if codeBase.toNat < dataBase.toNat + config.dataSize then
    .error (.dataOverlapsCode config.dataSize)
  else if 2 ^ 32 ≤ stackBase.toNat + 4 * config.stackWords then
    .error (.stackTooLarge config.stackWords)
  else
    .ok ()

end Config

end X86Listing
