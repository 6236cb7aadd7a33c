/-!
# Pixel formats

How many bits a pixel has, whether it is an index into a palette, and how long a row has to be.
-/

namespace DialGraphics

inductive PixelFormat
  /-- Black or white, leftmost pixel in the lowest bit, rows in whole 32-bit words. -/
  | mono
  | color
  /-- Palette indices of one bit, leftmost pixel in the highest bit. -/
  | palette1
  | palette2
  | palette4
  /-- One colour byte per pixel, for the pixels on a round display only. -/
  | circular
  deriving DecidableEq, Repr

namespace PixelFormat

def ofNumber? : Nat → Option PixelFormat
  | 0 => some .mono
  | 1 => some .color
  | 2 => some .palette1
  | 3 => some .palette2
  | 4 => some .palette4
  | 5 => some .circular
  | _ => none

def number : PixelFormat → Nat
  | .mono => 0
  | .color => 1
  | .palette1 => 2
  | .palette2 => 3
  | .palette4 => 4
  | .circular => 5

def bitsPerPixel : PixelFormat → Nat
  | .mono | .palette1 => 1
  | .palette2 => 2
  | .palette4 => 4
  | .color | .circular => 8

def isPalettized : PixelFormat → Bool
  | .palette1 | .palette2 | .palette4 => true
  | .mono | .color | .circular => false

def paletteSize (f : PixelFormat) : Nat := if f.isPalettized then Nat.pow 2 f.bitsPerPixel else 0

def palettized? : Nat → Option PixelFormat
  | 1 => some .palette1
  | 2 => some .palette2
  | 4 => some .palette4
  | _ => none

/-- The fewest bytes that hold a row of `width` pixels; `0` for the circular format, whose rows
differ in length. -/
def rowStride (f : PixelFormat) (width : Nat) : Nat :=
  match f with
  | .mono => (width + 31) / 32 * 4
  | .color => width
  | .circular => 0
  | .palette1 | .palette2 | .palette4 => (width * f.bitsPerPixel + 7) / 8

end PixelFormat

end DialGraphics
