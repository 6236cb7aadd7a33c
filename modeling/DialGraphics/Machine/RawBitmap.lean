import DialGraphics.Bitmap.Create
import DialGraphics.Machine.CircularRow

/-!
# Raw bitmaps in machine words

Blank storage and the reading of a raw file, computed step by step: row sizes in double words,
lengths of buffers as addresses, and the fields of the flags by shifts of a 16-bit word.
-/

namespace DialGraphics.Machine

/-! ### Storage -/

def rowStride (format : PixelFormat) (width : Nat) : Checked UInt16 :=
  match format with
  | .mono => do
    let filled ← add 32 width 31
    let stride ← mul 32 (filled / 32) 4
    .ok (UInt16.ofNat stride)
  | .color => .ok (UInt16.ofNat width)
  | .circular => .ok 0
  | .palette1 | .palette2 | .palette4 => do
    let used ← mul 32 width format.bitsPerPixel
    let filled ← add 32 used 7
    .ok (UInt16.ofNat (filled / 8))

def paletteSize (format : PixelFormat) : Checked Nat :=
  if format.isPalettized then shiftLeft 64 1 format.bitsPerPixel else .ok 0

def allocateBlank (size : Size) (format : PixelFormat) : Fallible DecodeError Bitmap :=
  match format with
  | .circular => do
    let rows ← table size
    let length ← storedSize rows
    let bytes ← settled (allocate length)
    return ⟨.owned bytes, .absent, 0, format, 1, .ofSize size, some rows⟩
  | _ => do
    let stride ← rowStride format size.w.toInt.toNat
    let length ← mul 64 stride.toNat size.h.toInt.toNat
    let bytes ← settled (allocate length)
    return ⟨.owned bytes, .absent, stride, format, 1, .ofSize size, none⟩

/-! ### Raw files -/

def pixelLength (format : PixelFormat) (rowSize : Nat) (size : Size) :
    Fallible DecodeError Nat :=
  match format with
  | .circular =>
    if size.isEmpty then throw .malformed
    else do
      let rows ← table size
      storedSize rows
  | _ => do
    let needed ← mul 64 format.bitsPerPixel (toUnsigned 64 size.w.toInt)
    let given ← mul 64 rowSize 8
    if given < needed then throw .malformed
    else if format = .mono ∧ rowSize % 4 ≠ 0 then throw .malformed
    else mul 64 rowSize (toUnsigned 64 size.h.toInt)

def parse (bytes : Bytes) (platform : Platform) : Fallible DecodeError RawLayout := do
  let parts ← pull? RawLayout.headerSize bytes
  let (rowSize, flags, width, height) ←
    settled (orFail .malformed (parts.bind fun p => RawLayout.fields? p.1))
  let kind ← shiftRight 16 flags.toNat 1
  let format ← settled (orFail .malformed (PixelFormat.ofNumber? (kind % 8)))
  if platform.compat = .legacy ∧ format ≠ .mono then throw .unsupportedFeature
  else do
    let size ← settled (orFail .malformed (RawLayout.size? width.toNat height.toNat))
    let pixels ← pixelLength format rowSize.toNat size
    let version ← shiftRight 16 flags.toNat 12
    let palette ← paletteSize format
    return ⟨format, UInt8.ofNat version, rowSize, size, pixels, palette⟩

def totalLength (l : RawLayout) : Checked Nat := do
  let pixels ← add 64 RawLayout.headerSize l.pixelLength
  add 64 pixels l.paletteLength

def ofLayout (pixels : PixelSource) (l : RawLayout) : Fallible DecodeError Bitmap := do
  let palette := if 0 < l.paletteLength then .trailing l.pixelLength else .absent
  match l.format with
  | .circular => do
    let rows ← table l.size
    return ⟨pixels, palette, l.rowSize, l.format, l.version, .ofSize l.size, some rows⟩
  | _ => return ⟨pixels, palette, l.rowSize, l.format, l.version, .ofSize l.size, none⟩

def ofRaw (bytes : Bytes) (platform : Platform) : Fallible DecodeError Bitmap := do
  let layout ← parse bytes platform
  let needed ← totalLength layout
  if bytes.length < needed then throw .malformed
  else do
    let pixels ← sliceFrom bytes RawLayout.headerSize
    ofLayout (.borrowed pixels) layout

end DialGraphics.Machine
