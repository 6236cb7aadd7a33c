import DialGraphics.Bytes.Basic

/-!
# Heap copies

A heap copy is a stretch of bytes inside a buffer that may be larger. What the buffer holds outside
the stretch is left over and means nothing. The stretch can be moved to an aligned address, and its
front can be given up, which moves the rest to where the stretch began.
-/

namespace DialGraphics

/-- A stretch of bytes inside a buffer. -/
structure HeapBytes where
  base : Nat
  buffer : Bytes
  start : Nat
  length : Nat
  within : start + length ≤ buffer.length

namespace HeapBytes

def toBytes (h : HeapBytes) : Bytes := (h.buffer.drop h.start).take h.length

def ofBytes (base : Nat) (bytes : Bytes) : HeapBytes := ⟨base, bytes, 0, bytes.length, by omega⟩

def ofPadded (base : Nat) (bytes : Bytes) (pad : Nat) : HeapBytes :=
  ⟨base, bytes ++ List.replicate pad 0, 0, bytes.length, by simp⟩

def slack (h : HeapBytes) : Nat := h.buffer.length - h.length

/-- The first place in a buffer at address `base` whose address is a multiple of `align`. -/
def alignedStart (base align : Nat) : Nat := (align - base % align) % align

def isPowerOfTwo (n : Nat) : Bool := n ≠ 0 && Nat.pow 2 n.log2 == n

/-- Moves the stretch to an address that is a multiple of `align`. Refused if `align` is no power of
two or the buffer has no room. -/
def align (h : HeapBytes) (align : Nat) : Bool × HeapBytes :=
  if isPowerOfTwo align then
    let target := alignedStart h.base align
    if room : target + h.length ≤ h.buffer.length then
      (true, { h with
        buffer := h.buffer.move h.start h.length target
        start := target
        within := by rw [Bytes.length_move room]; exact room })
    else (false, h)
  else (false, h)

/-- Gives up the first `n` bytes, or all: the rest moves to where the stretch began. -/
def advance (h : HeapBytes) (n : Nat) : HeapBytes :=
  let n := min n h.length
  { h with
    buffer := h.buffer.move (h.start + n) (h.length - n) h.start
    length := h.length - n
    within := by
      have := h.within
      rw [Bytes.length_move (by omega)]
      omega }

def write (h : HeapBytes) (pos : Nat) (value : UInt8) : HeapBytes :=
  { h with
    buffer := h.buffer.set (h.start + pos) value
    within := by simpa using h.within }

def replace (h : HeapBytes) (bytes : Bytes) : HeapBytes :=
  { h with
    buffer := h.buffer.overwrite h.start (bytes.take h.length)
    within := by
      have := h.within
      rw [Bytes.length_overwrite]
      · exact this
      · simp only [List.length_take]
        omega }

/-- The stretch as a buffer of its own: moved to the front, with the rest cut off. -/
def detach (h : HeapBytes) : Bytes := (h.buffer.move h.start h.length 0).take h.length

@[simp] theorem length_toBytes (h : HeapBytes) : h.toBytes.length = h.length := by
  have := h.within
  simp only [toBytes, List.length_take, List.length_drop]
  omega

end HeapBytes

end DialGraphics
