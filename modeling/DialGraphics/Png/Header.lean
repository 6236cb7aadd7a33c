import DialGraphics.DecodeError
import DialGraphics.Png.Chunk

/-!
# The image header

The geometry of an image and of its packed rows. Only images without interlacing and with at most
eight bits per channel are accepted.
-/

namespace DialGraphics.Png

inductive ColorType
  | gray
  | rgb
  | indexed
  | grayAlpha
  | rgba
  deriving DecidableEq, Repr

namespace ColorType

def ofNumber? : Nat → Option ColorType
  | 0 => some .gray
  | 2 => some .rgb
  | 3 => some .indexed
  | 4 => some .grayAlpha
  | 6 => some .rgba
  | _ => none

def number : ColorType → Nat
  | .gray => 0
  | .rgb => 2
  | .indexed => 3
  | .grayAlpha => 4
  | .rgba => 6

def channels : ColorType → Nat
  | .gray => 1
  | .rgb => 3
  | .indexed => 1
  | .grayAlpha => 2
  | .rgba => 4

def depths : ColorType → List Nat
  | .gray => [1, 2, 4, 8, 16]
  | .indexed => [1, 2, 4, 8]
  | .rgb | .grayAlpha | .rgba => [8, 16]

def allows (t : ColorType) (depth : Nat) : Bool := t.depths.contains depth

end ColorType

structure Header where
  width : Nat
  height : Nat
  depth : Nat
  color : ColorType
  deriving DecidableEq, Repr

namespace Header

/-- The largest side of an image, the largest signed double word. -/
def maxSide : Nat := 2147483647

def fields? (data : Bytes) : Option (Nat × Nat × List Nat) := do
  let (width, rest) ← Bytes.bigWord32? data
  let (height, rest) ← Bytes.bigWord32? rest
  if rest.length = 5 then return (width, height, rest.map UInt8.toNat) else none

def check (width height depth color compression filter interlace : Nat) :
    Except PngError Header :=
  if width = 0 ∨ height = 0 ∨ maxSide < width ∨ maxSide < height then .error .malformed
  else
    match ColorType.ofNumber? color with
    | none => .error .malformed
    | some type =>
      if !type.allows depth then .error .malformed
      else if compression ≠ 0 ∨ filter ≠ 0 ∨ 1 < interlace then .error .malformed
      else if interlace = 1 then .error .unsupportedInterlacing
      else if depth = 16 then .error .unsupportedColorFormat
      else .ok ⟨width, height, depth, type⟩

def ofChunk (c : Chunk) : Except PngError Header :=
  if c.tag ≠ Tag.ihdr then .error .malformed
  else
    match fields? c.data with
    | some (width, height, [depth, color, compression, filter, interlace]) =>
      check width height depth color compression filter interlace
    | _ => .error .malformed

def toData (h : Header) : Bytes :=
  Bytes.ofBigWord32 h.width ++ Bytes.ofBigWord32 h.height
    ++ [UInt8.ofNat h.depth, UInt8.ofNat h.color.number, 0, 0, 0]

def bitsPerPixel (h : Header) : Nat := h.depth * h.color.channels

/-- The distance in bytes between a byte and the one a filter calls its left neighbour: a whole
pixel, and at least one byte. -/
def filterUnit (h : Header) : Nat := max 1 (h.bitsPerPixel / 8)

def rowStride (h : Header) (width : Nat) : Nat := (h.bitsPerPixel * width + 7) / 8

end Header

end DialGraphics.Png
