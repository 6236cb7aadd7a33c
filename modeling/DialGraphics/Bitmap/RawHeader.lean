import DialGraphics.Bitmap.CircularRow
import DialGraphics.Bitmap.PixelFormat
import DialGraphics.Bytes.Basic
import DialGraphics.Color
import DialGraphics.Platform

/-!
# The raw bitmap header

A raw bitmap is a header of twelve bytes, the pixel rows, and the palette where the format has one.
The header has the row size, a word of flags (format and version among them), two words that mean
nothing, the width and the height.
-/

namespace DialGraphics

/-- What a checked header says about the bytes after it. -/
structure RawLayout where
  format : PixelFormat
  version : UInt8
  rowSize : UInt16
  size : Size
  pixelLength : Nat
  paletteLength : Nat
  deriving DecidableEq, Repr

namespace RawLayout

def headerSize : Nat := 12

def totalLength (l : RawLayout) : Nat := headerSize + l.pixelLength + l.paletteLength

def maxSide : Nat := 32767

def size? (width height : Nat) : Option Size :=
  if maxSide < width ∨ maxSide < height then none
  else some ⟨Int16.ofNat width, Int16.ofNat height⟩

/-- The bytes of pixels in an image of the given size. The rows must hold the width; those of the
1-bit format are whole 32-bit words. A circular image must have an area. -/
def pixelLength? (format : PixelFormat) (rowSize : Nat) (size : Size) : Except DecodeError Nat :=
  match format with
  | .circular =>
    if size.isEmpty then .error .malformed
    else (CircularRow.table size).map CircularRow.storedSize
  | _ =>
    if rowSize * 8 < format.bitsPerPixel * size.w.toInt.toNat then .error .malformed
    else if format = .mono ∧ rowSize % 4 ≠ 0 then .error .malformed
    else .ok (rowSize * size.h.toInt.toNat)

def fields? (bytes : Bytes) : Option (UInt16 × UInt16 × UInt16 × UInt16) := do
  let (rowSize, rest) ← Bytes.word16? bytes
  let (flags, rest) ← Bytes.word16? rest
  let (_, rest) ← Bytes.splitAt? 4 rest
  let (width, rest) ← Bytes.word16? rest
  let (height, _) ← Bytes.word16? rest
  return (rowSize, flags, width, height)

def formatOfFlags? (flags : UInt16) : Option PixelFormat :=
  PixelFormat.ofNumber? (flags.toNat / 2 % 8)

def versionOfFlags (flags : UInt16) : UInt8 := UInt8.ofNat (flags.toNat / 4096)

/-- Checks the header in front of some bytes. Whether enough bytes follow is for the caller to
check. A legacy app can use the 1-bit format only. -/
def parse (bytes : Bytes) (platform : Platform) : Except DecodeError RawLayout := do
  let (rowSize, flags, width, height) ← orFail .malformed (fields? bytes)
  let format ← orFail .malformed (formatOfFlags? flags)
  if platform.compat = .legacy ∧ format ≠ .mono then throw .unsupportedFeature
  let size ← orFail .malformed (size? width.toNat height.toNat)
  let pixelLength ← pixelLength? format rowSize.toNat size
  return ⟨format, versionOfFlags flags, rowSize, size, pixelLength, format.paletteSize⟩

def encode (rowSize flags width height : UInt16) (pixels : Bytes) (palette : List Color) : Bytes :=
  Bytes.ofWord16 rowSize ++ Bytes.ofWord16 flags ++ [0, 0, 0, 0] ++ Bytes.ofWord16 width
    ++ Bytes.ofWord16 height ++ pixels ++ palette.map Color.argb

end RawLayout

end DialGraphics
