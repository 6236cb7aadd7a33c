import DialGraphics.Machine.Basic
import DialGraphics.Resource.Map

/-!
# Heap copies in machine words

The stretch of a heap copy is a start and a length, and nothing says that it lies in the buffer.
Every change adds them up again, and stops the machine if the bytes it moves, or the place they are
moved to, are not in the buffer.
-/

namespace DialGraphics.Machine

structure HeapCopy where
  base : Nat
  buffer : Bytes
  start : Nat
  length : Nat
  deriving DecidableEq

namespace HeapCopy

/-- The words of a heap copy. -/
abbrev ofHeap (h : HeapBytes) : HeapCopy := ⟨h.base, h.buffer, h.start, h.length⟩

def toBytes (h : HeapCopy) : Checked Bytes := do
  let stop ← add 64 h.start h.length
  let front ← sliceTo h.buffer stop
  sliceFrom front h.start

/-- Moves the stretch to an aligned address, unless it begins there. -/
def align (h : HeapCopy) (alignment : Nat) : Checked (Bool × HeapCopy) :=
  if alignment = 0 ∨ ¬ HeapBytes.isPowerOfTwo alignment then .ok (false, h)
  else do
    let past ← rem h.base alignment
    let missing ← sub alignment past
    let target ← rem missing alignment
    let needed ← add 64 target h.length
    if h.buffer.length < needed then .ok (false, h)
    else if target = h.start then .ok (true, h)
    else do
      let stop ← add 64 h.start h.length
      let buffer ← copyWithin h.buffer h.start stop target
      .ok (true, { h with buffer, start := target })

def advance (h : HeapCopy) (n : Nat) : Checked HeapCopy := do
  let n := min n h.length
  let source ← add 64 h.start n
  let stop ← add 64 h.start h.length
  let buffer ← copyWithin h.buffer source stop h.start
  let length ← sub h.length n
  .ok { h with buffer, length }

def detach (h : HeapCopy) : Checked Bytes :=
  if h.start = 0 then .ok (h.buffer.take h.length)
  else do
    let stop ← add 64 h.start h.length
    let buffer ← copyWithin h.buffer h.start stop 0
    .ok (buffer.take h.length)

end HeapCopy

/-! ### Changes -/

inductive Change
  | advance (n : UInt64)
  | align (alignment : UInt64)

namespace HeapCopy

def change (h : HeapCopy) : Change → Checked HeapCopy
  | .advance n => h.advance n.toNat
  | .align alignment => do
    let (_, h) ← h.align alignment.toNat
    .ok h

def run (h : HeapCopy) (changes : List Change) : Checked HeapCopy := changes.foldlM change h

end HeapCopy

/-- What a change does to a resource. A view in place has nowhere to move to. -/
def Change.applied : ResourceBytes → Change → ResourceBytes
  | r, .advance n => r.advance n.toNat
  | .mapped key bytes, .align _ => .mapped key bytes
  | .heap copy, .align alignment => .heap (copy.align alignment.toNat).2

end DialGraphics.Machine
