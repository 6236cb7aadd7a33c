import DialGraphics.Machine.RawBitmap
import DialGraphics.Machine.Rect

/-!
# Palette forms in machine words

The palette form of a 1-bit bitmap, made step by step: the far corner in signed double words, and
the rows of the bitmap copied into those of blank storage pair by pair, as far as both reach.
-/

namespace DialGraphics.Machine

/-! ### The far corner -/

def coordinate (v : Int) : Except DecodeError Int16 :=
  if -32768 ≤ v ∧ v ≤ 32767 then .ok (Int16.ofInt v) else .error .malformed

/-! ### Rows -/

/-- Copies as many bytes as both rows have, with the bits of each in the opposite order. -/
def reverseRow (out row : Bytes) : Bytes :=
  List.zipWith (fun _ byte => Bitmap.reverseBits byte) out row ++ out.drop row.length

/-- Copies row by row, as long as both have one. The last row of the source may be a shorter one. -/
def reverseRows (pixels : Bytes) (stride : Nat) (source : Bytes) (sourceStride : Nat) :
    Checked Bytes :=
  if stride = 0 ∨ sourceStride = 0 then .ok pixels
  else do
    let (rows, rest) ← wholeChunks stride pixels
    let sources ← chunks sourceStride source
    .ok ((List.zipWith reverseRow rows sources ++ rows.drop sources.length).flatten ++ rest)

def toPalettized (b : Bitmap) : Fallible DecodeError Bitmap :=
  if b.format = .mono then do
    let full ← union b.bounds {}
    let right ← stop full.columns
    let width ← settled (coordinate right)
    let bottom ← stop full.rows
    let height ← settled (coordinate bottom)
    let out ← allocateBlank ⟨width, height⟩ .palette1
    let pixels ← reverseRows out.pixels.toBytes out.rowSize.toNat b.pixels.toBytes b.rowSize.toNat
    return { out with
      pixels := .owned pixels
      palette := .given (.owned [.black, .white])
      bounds := b.bounds }
  else throw .badParameter

end DialGraphics.Machine
