import X86Listing.Fault
import X86Listing.Memory.Region

/-!
# The stack

The stack is a region of words that grows downwards.  The address of its top is
not part of it: that is the register `esp`, and a procedure may load `esp` with
anything.  So every operation takes the top as an argument and answers the new
one.

* `push` and `pop` move the top by four bytes.
* `top` reads a word above the top and moves nothing.
* A push with the top too low is an overflow, and a read past the end is an
  underflow; any other access outside the region is a bad address.
-/

namespace X86Listing

/-- A region of words that grows downwards. -/
structure Stack where
  /-- The bytes of all slots. -/
  region : Region
deriving DecidableEq, Inhabited

namespace Stack

/-- The most slots of a stack at `base` whose end is still an address. -/
def maxWords (base : UInt32) : Nat :=
  (0xffffffff - base.toNat) / 4

/-- A stack of zeros with `words` slots, or as many as there is room for. -/
def new (words : Nat) (base : UInt32) : Stack :=
  ⟨.zeroed base (4 * min words (maxWords base))⟩

/-- The lowest address. -/
def base (stack : Stack) : UInt32 :=
  stack.region.base

/-- The address past the highest byte, which is the top of an empty stack. -/
def limit (stack : Stack) : UInt32 :=
  stack.base + UInt32.ofNat stack.region.size

/-- The number of slots. -/
def words (stack : Stack) : Nat :=
  stack.region.size / 4

/-- The number of whole slots from a top to the end. -/
def depth (stack : Stack) (esp : UInt32) : Nat :=
  (stack.limit.toNat - esp.toNat) / 4

/-- The stack with zero in every slot. -/
def cleared (stack : Stack) : Stack :=
  ⟨.zeroed stack.region.base stack.region.size⟩

/-- Stores a word below the top and answers the stack and its new top. -/
def push (stack : Stack) (esp word : UInt32) : Except Fault (Stack × UInt32) :=
  if esp < 4 ∨ esp - 4 < stack.base then
    .error (.stackOverflow esp)
  else
    match stack.region.storeWord? (esp - 4) word with
    | none => .error (.badAddress (esp - 4) 4)
    | some region => .ok (⟨region⟩, esp - 4)

/-- The word that is `depth` slots above the top. -/
def top (stack : Stack) (esp : UInt32) (depth : Nat) : Except Fault UInt32 :=
  if 2 ^ 32 ≤ esp.toNat + 4 * depth then
    .error (.stackUnderflow 0xffffffff)
  else
    let address := esp + UInt32.ofNat (4 * depth)
    if address < stack.base then
      .error (.badAddress address 4)
    else
      match stack.region.loadWord? address with
      | none => .error (.stackUnderflow address)
      | some word => .ok word

/-- The word at the top and the top above it. -/
def pop (stack : Stack) (esp : UInt32) : Except Fault (UInt32 × UInt32) := do
  let word ← stack.top esp 0
  return (word, esp + 4)

/-- The bytes from the top to the end. -/
def live (stack : Stack) (esp : UInt32) : List UInt8 :=
  let start := max esp.toNat stack.base.toNat - stack.base.toNat
  stack.region.bytes.slice start (stack.region.size - start)

end Stack

end X86Listing
