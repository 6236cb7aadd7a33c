import DialGraphics.Bitmap.Basic

/-!
# Single pixels

What is stored for a pixel, and the colour that it stands for. Rows are read as `Bitmap.row?` gives
them, so a pixel outside the usable columns of its row, or outside the storage, has no value.
-/

namespace DialGraphics

/-- How far the pixel at a place in its byte lies above the lowest bit. The 1-bit format goes up
from the lowest bit, the palette formats down from the highest. -/
def PixelFormat.shift (f : PixelFormat) (place : Nat) : Nat :=
  match f with
  | .mono => place
  | _ => 8 - f.bitsPerPixel * (place + 1)

def PixelFormat.valueAt? (f : PixelFormat) (row : Bytes) (x : Nat) : Option Nat :=
  let perByte := 8 / f.bitsPerPixel
  row[x / perByte]?.map fun byte =>
    (byte.toNat >>> f.shift (x % perByte)) % Nat.pow 2 f.bitsPerPixel

namespace Bitmap

def valueAt? (b : Bitmap) (x y : Int) : Option Nat :=
  (b.row? y).bind fun row =>
    if row.minX ≤ x ∧ x ≤ row.maxX then b.format.valueAt? row.data (x - row.minX).toNat else none

def colorAt? (b : Bitmap) (x y : Int) : Option Color :=
  (b.valueAt? x y).bind fun value =>
    match b.format with
    | .mono => some (if value = 1 then .white else .black)
    | .color | .circular => some ⟨UInt8.ofNat value⟩
    | .palette1 | .palette2 | .palette4 => b.colors?.bind fun colors => colors[value]?

end Bitmap

end DialGraphics
