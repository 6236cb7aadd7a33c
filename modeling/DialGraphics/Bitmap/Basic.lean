import DialGraphics.Bitmap.CircularRow
import DialGraphics.Bitmap.PixelFormat
import DialGraphics.Bitmap.Pixels
import DialGraphics.Geometry.Rect

/-!
# Bitmaps

Pixel storage with what is needed to read it: a format, a row size or a table of rows, a palette,
and the bounds, which say what part of the storage the bitmap is about. A view of a part shares
storage and palette and has bounds of its own.
-/

namespace DialGraphics

/-- A raster image. -/
structure Bitmap where
  pixels : PixelSource
  palette : PaletteSource
  /-- Bytes per row, `0` where rows differ in length. -/
  rowSize : UInt16
  format : PixelFormat
  version : UInt8
  bounds : Rect
  rows : Option (List CircularRow)

namespace Bitmap

/-! ### Data and palette -/

/-- The pixel bytes. A palette at the end of the storage does not count. -/
def data (b : Bitmap) : Bytes :=
  match b.palette with
  | .trailing offset => b.pixels.toBytes.take offset
  | _ => b.pixels.toBytes

def writableLength? (b : Bitmap) : Option Nat :=
  if b.pixels.isWritable then some b.data.length else none

def write? (b : Bitmap) (pos : Nat) (value : UInt8) : Option Bitmap :=
  match b.writableLength? with
  | none => none
  | some n =>
    if pos < n then some { b with pixels := b.pixels.replace (b.pixels.toBytes.set pos value) }
    else none

def colors? (b : Bitmap) : Option (List Color) :=
  match b.palette with
  | .absent => none
  | .given palette => some palette.colors
  | .trailing offset =>
    (b.pixels.toBytes.slice? offset b.format.paletteSize).map (List.map Color.mk)

def writableColors? (b : Bitmap) : Option (List Color) :=
  match b.palette with
  | .absent | .given (.borrowed _) => none
  | .given (.owned colors) => some colors
  | .trailing _ => if b.pixels.isWritable then b.colors? else none

def writeColor? (b : Bitmap) (index : Nat) (color : Color) : Option Bitmap :=
  match b.writableColors? with
  | none => none
  | some colors =>
    if index < colors.length then
      match b.palette with
      | .trailing offset =>
        some { b with
          pixels := b.pixels.replace (b.pixels.toBytes.set (offset + index) color.argb) }
      | _ => some { b with palette := .given (.owned (colors.set index color)) }
    else none

def setPalette (b : Bitmap) (palette : Palette) : Bitmap := { b with palette := .given palette }

def ownsPalette (b : Bitmap) : Bool :=
  match b.palette with
  | .given (.owned _) => true
  | _ => false

/-- The word of flags of a raw bitmap file: in the heap or not, the format, whether the palette is
the bitmap's own, and the version. -/
def infoFlags (b : Bitmap) : Nat :=
  (if b.pixels.isHeapAllocated then 1 else 0) + b.format.number * 2
    + (if b.ownsPalette then 16 else 0) + b.version.toNat % 16 * 4096

/-! ### Rows -/

/-- One stored row. Its first byte holds column `minX` of a circular bitmap, and column 0 of any
other. -/
structure RowInfo where
  data : Bytes
  minX : Int
  maxX : Int
  deriving DecidableEq, Repr

def maxCoordinate : Nat := 32767

def row? (b : Bitmap) (y : Int) : Option RowInfo :=
  if y < 0 then none
  else
    match b.rows with
    | some rows =>
      rows[y.toNat]?.bind fun row =>
        (b.data.slice? row.offset row.span).map fun data => ⟨data, row.minX, row.maxX⟩
    | none =>
      (b.data.slice? (y.toNat * b.rowSize.toNat) b.rowSize.toNat).map fun data =>
        ⟨data, 0, Interval.clamp (b.bounds.maxX - 1) (-1) maxCoordinate⟩

/-! ### Bounds -/

def rowsWidth (rows : List CircularRow) : Int :=
  match (rows.map fun r => r.maxX + 1).max? with
  | none => 0
  | some w => w

def storageSize (b : Bitmap) : Size :=
  match b.rows with
  | some rows => ⟨Int16.ofInt (rowsWidth rows), Int16.ofNat rows.length⟩
  | none =>
    let stride := b.rowSize.toNat
    ⟨Int16.ofNat (min (stride * 8 / b.format.bitsPerPixel) maxCoordinate),
      Int16.ofNat (min (b.pixels.toBytes.length / stride) maxCoordinate)⟩

def setBounds (b : Bitmap) (bounds : Rect) : Except DecodeError Bitmap :=
  if bounds.size.isNegative || !(Rect.ofSize b.storageSize).contains bounds then
    .error .badParameter
  else .ok { b with bounds }

/-! ### Views -/

def view (b : Bitmap) (bounds : Rect) : Bitmap :=
  { b with pixels := .borrowed b.pixels.toBytes, palette := b.palette.lend, bounds }

def subBitmap? (b : Bitmap) (rect : Rect) : Option Bitmap := (rect.clip? b.bounds).map b.view

def writableView? (b : Bitmap) (bounds : Rect) : Option Bitmap :=
  if b.pixels.isWritable then
    some { b with pixels := .loaned b.pixels.toBytes, palette := b.palette.lend, bounds }
  else none

def takeBack (b : Bitmap) (bytes : Bytes) : Bitmap :=
  { b with pixels := b.pixels.replace bytes }

/-! ### Replacing the storage -/

/-- The bytes that storage of the given format and row size needs to hold some bounds, and the table
of rows if the format has one. Rows that cannot hold the bounds are refused. -/
def neededFor (bounds : Rect) (format : PixelFormat) (rowSize : UInt16) :
    Except DecodeError (Nat × Option (List CircularRow)) :=
  match format with
  | .circular =>
    (CircularRow.table bounds.size).map fun rows => (CircularRow.storedSize rows, some rows)
  | _ =>
    let width := (Interval.clamp bounds.maxX 0 65535).toNat
    if rowSize.toNat < format.rowStride width then .error .badParameter
    else .ok (rowSize.toNat * bounds.maxY.toNat, none)

/-- Gives the bitmap other storage, which has to hold the bounds; the storage it had comes back. A
palette inside the old storage goes with it. -/
def setData (b : Bitmap) (pixels : PixelSource) (format : PixelFormat) (rowSize : UInt16) :
    Except DecodeError (Bitmap × PixelSource) :=
  match neededFor b.bounds format rowSize with
  | .error e => .error e
  | .ok (needed, rows) =>
    if pixels.toBytes.length < needed then .error .badParameter
    else
      let palette :=
        match b.palette with
        | .trailing _ => .absent
        | other => other
      .ok ({ b with
        pixels, format, palette, rows
        rowSize := if rows.isSome then 0 else rowSize }, b.pixels)

end Bitmap

end DialGraphics
