import DialGraphics.Bitmap.OfPng
import DialGraphics.Machine.Decoder
import DialGraphics.Machine.RawBitmap

/-!
# Bitmaps from PNGs in machine words

The pixels of the first frame, one by one: where a value lies in its row, how far it is shifted, and
where the new byte goes. Rows of the frame and of the bitmap are taken in pairs.
-/

namespace DialGraphics.Machine

open Png (Frame Header TransparentKey)

/-! ### Pixels -/

def packedValue (row : Array UInt8) (x depth : Nat) : Checked Nat := do
  let perByte ← div 8 depth
  let place ← div x perByte
  let byte := (row[place]?.getD 0).toNat
  let column ← rem x perByte
  let values ← add 64 column 1
  let bits ← mul 64 depth values
  let shift ← sub 8 bits
  let shifted ← shiftRight 8 byte shift
  let unused ← sub 8 depth
  let mask ← shiftRight 8 255 unused
  .ok (shifted &&& mask)

/-- Spreads a value over eight bits. The library function takes one to eight bits, and no value that
needs more. -/
def spread (depth value : Nat) : Checked UInt8 :=
  if 1 ≤ depth ∧ depth ≤ 8 ∧ value < Nat.pow 2 depth then .ok (Png.spread depth value)
  else .error .badArgument

/-- Byte `k` of pixel `x` in a row of `count` bytes for each pixel. -/
def channel (row : Array UInt8) (count x k : Nat) : Checked UInt8 := do
  let first ← mul 64 x count
  let place ← add 64 first k
  .ok (row[place]?.getD 0)

def sample (h : Header) (palette : List Rgba) (key : Option TransparentKey) (row : Array UInt8)
    (x : Nat) : Checked Rgba :=
  match h.color with
  | .indexed => do
    let v ← packedValue row x h.depth
    .ok (palette[v]?.getD .transparent)
  | .gray => do
    let v ← packedValue row x h.depth
    if key = some (.gray v) then .ok .transparent
    else do
      let y ← spread h.depth v
      .ok (.gray y)
  | .grayAlpha => do
    let y ← channel row 2 x 0
    let a ← channel row 2 x 1
    .ok ⟨y, y, y, a⟩
  | .rgb => do
    let r ← channel row 3 x 0
    let g ← channel row 3 x 1
    let b ← channel row 3 x 2
    .ok (if key = some (.rgb r.toNat g.toNat b.toNat) then .transparent else ⟨r, g, b, 255⟩)
  | .rgba => do
    let r ← channel row 4 x 0
    let g ← channel row 4 x 1
    let b ← channel row 4 x 2
    let a ← channel row 4 x 3
    .ok ⟨r, g, b, a⟩

def isLight (c : Rgba) : Checked Bool :=
  if c.a < 128 then .ok true
  else do
    let r ← mul 32 c.r.toNat 299
    let g ← mul 32 c.g.toNat 587
    let b ← mul 32 c.b.toNat 114
    let both ← add 32 r g
    let sum ← add 32 both b
    .ok (decide (128 ≤ sum / 1000))

/-! ### Rows -/

def copyRow (out row : Bytes) : Checked Bytes := do
  let n := min out.length row.length
  let front ← sliceTo out n
  let bytes ← sliceTo row n
  let copied ← copyFrom front bytes
  .ok (copied ++ out.drop n)

def colorRow (colorAt : Array UInt8 → Nat → Checked Rgba) (out row : Bytes) : Checked Bytes :=
  (List.range out.length).mapM fun x => do
    let c ← colorAt row.toArray x
    .ok (Color.ofRgba c).argb

def lightPixel (colorAt : Nat → Checked Rgba) (out : Bytes) (x : Nat) : Checked Bytes := do
  let c ← colorAt x
  let light ← isLight c
  if light then do
    let byte ← get out (x / 8)
    let bit ← shiftLeft 8 1 (x % 8)
    set out (x / 8) (byte ||| UInt8.ofNat bit)
  else .ok out

def lightRow (width : Nat) (colorAt : Array UInt8 → Nat → Checked Rgba) (out row : Bytes) :
    Checked Bytes :=
  (List.range width).foldlM (lightPixel (colorAt row.toArray)) out

/-- Writes every row of some pixels from the row of the frame at the same place, as long as there is
one. -/
def writeRows (write : Bytes → Bytes → Checked Bytes) (stride : Nat) (frame : Frame)
    (pixels : Bytes) : Checked Bytes := do
  let (rows, rest) ← wholeChunks stride pixels
  let packed ← chunks frame.rowStride frame.data
  let written ← (rows.zip packed).mapM fun pair => write pair.1 pair.2
  .ok ((written ++ rows.drop packed.length).flatten ++ rest)

/-! ### Bitmaps -/

def ofPackedRows (frame : Frame) (size : Size) (format : PixelFormat) (colors : List Color) :
    Fallible DecodeError Bitmap := do
  let b ← allocateBlank size format
  let pixels ← writeRows copyRow b.rowSize.toNat frame b.pixels.toBytes
  let count ← paletteSize format
  let entries := colors.take count
  return { b with
    pixels := .owned pixels
    palette := .given (.owned (entries ++ List.replicate (count - entries.length) .clear)) }

def ofColors (frame : Frame) (size : Size) (colorAt : Array UInt8 → Nat → Checked Rgba) :
    Fallible DecodeError Bitmap := do
  let b ← allocateBlank size .color
  let pixels ← writeRows (colorRow colorAt) b.rowSize.toNat frame b.pixels.toBytes
  return { b with pixels := .owned pixels }

def ofLight (frame : Frame) (size : Size) (colorAt : Array UInt8 → Nat → Checked Rgba) :
    Fallible DecodeError Bitmap := do
  let b ← allocateBlank size .mono
  let width := toUnsigned 64 size.w.toInt
  let pixels ← writeRows (lightRow width colorAt) b.rowSize.toNat frame b.pixels.toBytes
  return { b with pixels := .owned pixels }

/-- The gray levels of a format; their number is a byte. -/
def grayLevels (format : PixelFormat) (depth : Nat) (key : Option TransparentKey) :
    Checked (List Color) := do
  let count ← paletteSize format
  (List.range (count % 256)).mapM fun v =>
    if key = some (.gray v) then .ok .clear
    else do
      let y ← spread depth v
      .ok (.ofGray y 255)

def ofFrame (h : Header) (palette : List Rgba) (key : Option TransparentKey) (frame : Frame)
    (size : Size) (platform : Platform) : Fallible DecodeError Bitmap :=
  match platform.compat, h.color, PixelFormat.palettized? h.depth with
  | .legacy, _, _ => ofLight frame size (sample h palette key)
  | .current, .indexed, some format => ofPackedRows frame size format (palette.map Color.ofRgba)
  | .current, .gray, some format => do
    let levels ← grayLevels format h.depth key
    ofPackedRows frame size format levels
  | .current, _, _ => ofColors frame size (sample h palette key)

/-- The bitmap in the bytes of a PNG. -/
def ofPng (i : Deflate.Inflater) (bytes : Bytes) (platform : Platform) :
    Fallible DecodeError Bitmap := do
  let d ← ofBytes bytes
  match d.readHeader with
  | (.error e, _) => throw e.toDecodeError
  | (.ok h, d) => do
    let size ← settled (orFail .malformed (RawLayout.size? h.width h.height))
    match ← nextFrame i d with
    | (.error e, _) => throw e.toDecodeError
    | (.ok frame, d) => ofFrame h d.metadata.palette d.metadata.key frame size platform

end DialGraphics.Machine
