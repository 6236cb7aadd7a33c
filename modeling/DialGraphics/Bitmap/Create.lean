import DialGraphics.Allocation
import DialGraphics.Bitmap.Basic
import DialGraphics.Bitmap.RawHeader
import DialGraphics.Bytes.Sweep
import DialGraphics.Platform

/-!
# Making bitmaps

Blank bitmaps of a size and format that the platform can hold, views of raw bitmap files, and the
palette form of a 1-bit bitmap.
-/

namespace DialGraphics.Bitmap

/-! ### Blank bitmaps -/

/-- Whether a platform can hold a bitmap. A legacy app has 1-bit bitmaps only; circular ones need a
round display, of exactly their size where the platform says so. -/
def isSupported (platform : Platform) (size : Size) (format : PixelFormat) : Bool :=
  !size.isNegative && (platform.compat == .current || format == .mono)
    && (format != .circular
      || (platform.shape == .round
        && (!platform.circularNeedsDisplaySize || size == platform.displaySize)))

def allocateBlank (size : Size) (format : PixelFormat) : Except DecodeError Bitmap :=
  match format with
  | .circular => do
    let rows ← CircularRow.table size
    let bytes ← allocate (CircularRow.storedSize rows)
    return ⟨.owned bytes, .absent, 0, format, 1, .ofSize size, some rows⟩
  | _ => do
    let stride := format.rowStride size.w.toInt.toNat
    let bytes ← allocate (stride * size.h.toInt.toNat)
    return ⟨.owned bytes, .absent, UInt16.ofNat stride, format, 1, .ofSize size, none⟩

/-- A new bitmap of zero pixels. Palette formats get a palette of transparent entries. -/
def blank (size : Size) (format : PixelFormat) (platform : Platform) : Except DecodeError Bitmap :=
  if isSupported platform size format then
    (allocateBlank size format).map fun b =>
      if format.isPalettized then
        b.setPalette (.owned (List.replicate format.paletteSize .clear))
      else b
  else .error .badParameter

/-- A new bitmap of zero pixels with a palette, which needs an entry for every pixel value. -/
def blankWithPalette (size : Size) (format : PixelFormat) (palette : Palette)
    (platform : Platform) : Except DecodeError Bitmap :=
  if format.isPalettized ∧ format.paletteSize ≤ palette.colors.length
      ∧ isSupported platform size format then
    (allocateBlank size format).map (·.setPalette palette)
  else .error .badParameter

/-! ### Raw bitmap files -/

def ofLayout (pixels : PixelSource) (l : RawLayout) : Except DecodeError Bitmap := do
  let rows ←
    match l.format with
    | .circular => (CircularRow.table l.size).map some
    | _ => .ok none
  let palette := if 0 < l.paletteLength then .trailing l.pixelLength else .absent
  return ⟨pixels, palette, l.rowSize, l.format, l.version, .ofSize l.size, rows⟩

def ofRaw (bytes : Bytes) (platform : Platform) : Except DecodeError Bitmap := do
  let layout ← RawLayout.parse bytes platform
  if bytes.length < layout.totalLength then throw .malformed
  ofLayout (.borrowed (bytes.drop RawLayout.headerSize)) layout

def toRaw (b : Bitmap) : Bytes :=
  RawLayout.encode b.rowSize (UInt16.ofNat b.infoFlags) b.bounds.size.w.toUInt16
    b.bounds.size.h.toUInt16 b.data (b.colors?.getD [])

/-! ### From 1-bit to palette -/

def reverseBits (byte : UInt8) : UInt8 :=
  (List.range 8).foldl (fun r i => r ||| ((byte >>> UInt8.ofNat i) &&& 1) <<< UInt8.ofNat (7 - i)) 0

/-- The palette form of `count` rows: each row of `sourceStride` bytes with the bits of every byte
reversed, cut off or filled up to `stride` bytes. -/
def reverseRows (source : Bytes) (sourceStride stride count : Nat) : Bytes :=
  if stride = 0 ∨ sourceStride = 0 then List.replicate (stride * count) 0
  else
    ((Bytes.groups sourceStride count source).map fun row =>
      Bytes.fit stride ((row.take stride).map reverseBits)).flatten

/-- The 1-bit palette form of a 1-bit bitmap, black and white. It reaches from the origin to the far
corner of the bounds, which stay as they are. -/
def toPalettized (b : Bitmap) : Except DecodeError Bitmap :=
  if b.format = .mono then
    let full := b.bounds.union {}
    if maxCoordinate < full.maxX ∨ maxCoordinate < full.maxY then .error .malformed
    else
      let size : Size := ⟨Int16.ofInt full.maxX, Int16.ofInt full.maxY⟩
      (allocateBlank size .palette1).map fun out =>
        { out with
          pixels := .owned (reverseRows b.pixels.toBytes b.rowSize.toNat out.rowSize.toNat
            size.h.toInt.toNat)
          palette := .given (.owned [.black, .white])
          bounds := b.bounds }
  else .error .badParameter

end DialGraphics.Bitmap
