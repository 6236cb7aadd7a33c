import DialGraphics.Machine.HeapCopy

/-!
# Ranges of resources in machine words

A device fills a buffer that it is given, and reports how many bytes it has read. Where a range ends
and how large its buffer has to be are sums of words, which may not fit.
-/

namespace DialGraphics.Machine

structure Device where
  readOnly : ResourceKey → Option Bytes
  /-- What is read from an offset into a buffer: the number of bytes, and the buffer afterwards. -/
  fill : ResourceKey → Nat → Bytes → Nat × Bytes

structure Loader where
  device : Device
  /-- Whether views in place are tried at all. -/
  mapping : Bool
  /-- The address of every heap copy that is made. -/
  heapBase : Nat
  /-- Whether a buffer of so many bytes can be had. -/
  hasRoom : Nat → Bool

inductive Handle
  | mapped (key : ResourceKey) (bytes : Bytes)
  | heap (copy : HeapCopy)

def Handle.toBytes : Handle → Checked Bytes
  | .mapped _ bytes => .ok bytes
  | .heap copy => copy.toBytes

/-- The bytes from `start` to `stop`, if there are as many. -/
def between? (bytes : Bytes) (start stop : Nat) : Option Bytes :=
  if start ≤ stop ∧ stop ≤ bytes.length then some ((bytes.take stop).drop start) else none

namespace Loader

def mappable? (l : Loader) (key : ResourceKey) : Option Bytes :=
  if l.mapping then l.device.readOnly key else none

def copyRange (l : Loader) (key : ResourceKey) (offset length : Nat) (pad : Bool) :
    Fallible DecodeError Handle := do
  let extra := if pad then alignmentPad else 0
  let capacity ← settled (orFail .outOfMemory (sum? 64 length extra))
  if l.hasRoom capacity then do
    let (front, slack) ← splitAt (List.replicate capacity 0) length
    let (count, front) := l.device.fill key offset front
    if count = length then return .heap ⟨l.heapBase, front ++ slack, 0, length⟩
    else throw .malformed
  else throw .outOfMemory

def fetch (l : Loader) (key : ResourceKey) (offset length : Nat) (pad : Bool) :
    Fallible DecodeError Handle :=
  match l.mappable? key with
  | some all => do
    let bytes ← settled (orFail .malformed ((sum? 64 offset length).bind (between? all offset)))
    return .mapped key bytes
  | none => l.copyRange key offset length pad

def range? (l : Loader) (key : ResourceKey) (offset length : Nat) (pad : Bool) :
    Checked (Option Handle) := do
  let result ← (l.fetch key offset length pad).run
  .ok result.toOption

end Loader

/-! ### Maps -/

/-- A store whose reads are copied into the buffer. -/
def Device.ofStore (s : Store) : Device where
  readOnly := s.readOnly
  fill key offset buffer :=
    let read := s.read key offset buffer.length
    (read.length, buffer.overwrite 0 read)

def Loader.ofMap (m : ResourceMap) : Loader :=
  ⟨.ofStore m.store, m.mapping, m.heapBase, fun n => decide (n < allocationLimit)⟩

def Handle.ofResource : ResourceBytes → Handle
  | .mapped key bytes => .mapped key bytes
  | .heap copy => .heap (.ofHeap copy)

end DialGraphics.Machine
