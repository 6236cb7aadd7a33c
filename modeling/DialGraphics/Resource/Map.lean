import DialGraphics.Allocation
import DialGraphics.Platform
import DialGraphics.Resource.HeapBytes
import DialGraphics.Resource.Store

/-!
# Loading resources

A resource is used in place where that is possible, and copied to the heap where it is not. A view
in place is counted for as long as it is held.
-/

namespace DialGraphics

/-! ### Handles -/

inductive ResourceBytes
  | mapped (key : ResourceKey) (bytes : Bytes)
  | heap (copy : HeapBytes)

namespace ResourceBytes

def toBytes : ResourceBytes → Bytes
  | .mapped _ bytes => bytes
  | .heap copy => copy.toBytes

def isMapped : ResourceBytes → Bool
  | .mapped .. => true
  | .heap _ => false

def mappedKey? : ResourceBytes → Option ResourceKey
  | .mapped key _ => some key
  | .heap _ => none

/-- Gives up the first `n` bytes: a view narrows, a copy moves its data. -/
def advance (r : ResourceBytes) (n : Nat) : ResourceBytes :=
  match r with
  | .mapped key bytes => .mapped key (bytes.drop n)
  | .heap copy => .heap (copy.advance n)

def write? (r : ResourceBytes) (pos : Nat) (value : UInt8) : Option ResourceBytes :=
  match r with
  | .mapped .. => none
  | .heap copy => if pos < copy.length then some (.heap (copy.write pos value)) else none

def replace (r : ResourceBytes) (bytes : Bytes) : ResourceBytes :=
  match r with
  | .mapped .. => r
  | .heap copy => .heap (copy.replace bytes)

end ResourceBytes

/-! ### The map -/

/-- The extra bytes of a heap copy that may have to be aligned. -/
def alignmentPad : Nat := 7

structure ResourceMap where
  store : Store
  /-- Whether views in place are tried at all. -/
  mapping : Bool := true
  /-- The address of every heap copy that is made. -/
  heapBase : Nat := 0
  table : MappingTable := {}

namespace ResourceMap

def forPlatform (store : Store) (platform : Platform) : ResourceMap :=
  { store, mapping := platform.mappableFlash }

def mappable? (m : ResourceMap) (key : ResourceKey) : Option Bytes :=
  if m.mapping then m.store.readOnly key else none

def copyRange (m : ResourceMap) (key : ResourceKey) (offset length : Nat) (pad : Bool) :
    Except DecodeError HeapBytes :=
  let extra := if pad then alignmentPad else 0
  if allocationLimit ≤ length + extra then .error .outOfMemory
  else
    let bytes := m.store.read key offset length
    if bytes.length = length then .ok (.ofPadded m.heapBase bytes extra) else .error .malformed

/-- A range of a resource, in place if possible. A range outside a mapped resource and a short read
are malformed. -/
def fetch (m : ResourceMap) (key : ResourceKey) (offset length : Nat) (pad : Bool) :
    Except DecodeError ResourceBytes × ResourceMap :=
  match m.mappable? key with
  | some all =>
    match all.slice? offset length with
    | some bytes => (.ok (.mapped key bytes), { m with table := m.table.acquire key })
    | none => (.error .malformed, m)
  | none => ((m.copyRange key offset length pad).map .heap, m)

def range? (m : ResourceMap) (key : ResourceKey) (offset length : Nat) (pad : Bool) :
    Option ResourceBytes × ResourceMap :=
  match m.fetch key offset length pad with
  | (.ok bytes, m) => (some bytes, m)
  | (.error _, m) => (none, m)

/-- A whole resource. One that is missing or empty is not found. -/
def load (m : ResourceMap) (key : ResourceKey) (pad : Bool) :
    Except DecodeError ResourceBytes × ResourceMap :=
  if m.store.size key = 0 then (.error .notFound, m)
  else m.fetch key 0 (m.store.size key) pad

def release (m : ResourceMap) (r : ResourceBytes) : ResourceMap :=
  match r with
  | .mapped key _ => { m with table := m.table.release key }
  | .heap _ => m

/-- Bytes of their own, which may be written. A view in place is copied and given back. Memory never
runs out for that: the bytes of a view are in memory already, so they are fewer than
`allocationLimit`, and below that limit every allocation has room. -/
def intoHeap (m : ResourceMap) (r : ResourceBytes) : HeapBytes × ResourceMap :=
  match r with
  | .mapped _ bytes => (.ofBytes m.heapBase bytes, m.release r)
  | .heap copy => (copy, m)

def viewCount (m : ResourceMap) (key : ResourceKey) : Nat := m.table.count key

end ResourceMap

end DialGraphics
