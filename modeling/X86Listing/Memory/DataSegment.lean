import X86Listing.AddressMap
import X86Listing.Memory.Region
import X86Listing.NameMap

/-!
# The data segment

The data segment is a region of fixed capacity that is filled from its start.
Each declaration appends a *chunk* of bytes under a name.  A declaration under
the name of the chunk that ends at the fill mark makes that chunk longer, which
is how the bytes of one name can be declared on several lines.  A name whose
chunk is followed by another cannot be declared again.

`add` is the declaration.  The other operations read and write single bytes and
words, below the fill mark or above it.

Offsets and sizes are natural numbers.  They are the same in words as long as fewer
than `2 ^ 32` bytes are declared, as is always so in a segment of less than `2 ^ 32`
bytes.
-/

namespace X86Listing

/-- The bytes declared under one name. -/
structure Chunk where
  /-- The offset of the first byte from the start of the segment. -/
  offset : Nat
  /-- The number of bytes. -/
  size : Nat
deriving DecidableEq, Repr, Inhabited

/-- Why a declaration was refused. -/
inductive DataError where
  /-- The segment has fewer free bytes than the declaration needs. -/
  | exhausted (need free : Nat)
  /-- Other bytes were declared since the bytes of this name. -/
  | notLastChunk (name : String)
deriving DecidableEq, Repr

/-- The text of a refusal. -/
def DataError.message : DataError → String
  | exhausted need free => s!"data segment exhausted: need {need} bytes, {free} free"
  | notLastChunk name =>
    s!"data label '{name}' can only be extended while it is the last chunk"

/-- A region filled with named chunks from its start. -/
structure DataSegment where
  /-- The bytes, declared and free. -/
  region : Region
  /-- The fill mark: the number of bytes declared so far. -/
  used : Nat
  /-- The chunks by name. -/
  chunks : NameMap Chunk

namespace DataSegment

/-- A data segment without declarations. -/
def new (capacity : Nat) : DataSegment :=
  ⟨.zeroed dataBase capacity, 0, .empty⟩

instance : Inhabited DataSegment := ⟨new 0⟩

/-- The number of bytes, declared and free. -/
def capacity (data : DataSegment) : Nat :=
  data.region.size

/-- The number of bytes that can still be declared. -/
def free (data : DataSegment) : Nat :=
  data.capacity - data.used

/-- Is there a chunk of this name? -/
def declares (data : DataSegment) (name : String) : Bool :=
  data.chunks.contains name

/-- The chunk of a name. -/
def chunk? (data : DataSegment) (name : String) : Option Chunk :=
  data.chunks.get? name

/-- The address of the first byte of a name. -/
def address? (data : DataSegment) (name : String) : Option UInt32 :=
  (data.chunk? name).map fun chunk => dataBase + UInt32.ofNat chunk.offset

/-- The bytes of a chunk. -/
def bytesOfChunk (data : DataSegment) (chunk : Chunk) : List UInt8 :=
  data.region.bytes.slice chunk.offset chunk.size

/-- The bytes of a name. -/
def bytesOf? (data : DataSegment) (name : String) : Option (List UInt8) :=
  (data.chunk? name).map data.bytesOfChunk

/-- The chunk that a declaration of `size` bytes leaves under `name`: a new one
at the fill mark, or the old one made longer if it ends there. -/
def extend (data : DataSegment) (name : String) (size : Nat) : Except DataError Chunk :=
  match data.chunk? name with
  | none => .ok ⟨data.used, size⟩
  | some chunk =>
    if chunk.offset + chunk.size = data.used then
      .ok ⟨chunk.offset, chunk.size + size⟩
    else
      .error (.notLastChunk name)

/-- Declares `size` bytes under a name.  The bytes given are cut or filled up
with zeros to that size. -/
def add (data : DataSegment) (name : String) (bytes : List UInt8) (size : Nat) :
    Except DataError DataSegment :=
  if data.free < size then
    .error (.exhausted size data.free)
  else
    match data.extend name size with
    | .error e => .error e
    | .ok chunk =>
      .ok {
        region := { data.region with
          bytes := (data.region.bytes.clear data.used size).write data.used (bytes.take size) }
        used := data.used + size
        chunks := data.chunks.insert name chunk }

/-- The byte at an address. -/
def loadByte? (data : DataSegment) (address : UInt32) : Option UInt8 :=
  data.region.loadByte? address

/-- The word at an address. -/
def loadWord? (data : DataSegment) (address : UInt32) : Option UInt32 :=
  data.region.loadWord? address

/-- The segment after a byte is stored at an address. -/
def storeByte? (data : DataSegment) (address : UInt32) (value : UInt8) : Option DataSegment :=
  (data.region.storeByte? address value).map fun region => { data with region }

/-- The segment after a word is stored at an address. -/
def storeWord? (data : DataSegment) (address : UInt32) (value : UInt32) : Option DataSegment :=
  (data.region.storeWord? address value).map fun region => { data with region }

/-- The bytes from an address up to the next zero or the end of the segment.  The
end itself is an address of the empty string. -/
def string? (data : DataSegment) (address : UInt32) : Option (List UInt8) :=
  (data.region.offset? address 0).map data.region.stringAt

end DataSegment

end X86Listing
