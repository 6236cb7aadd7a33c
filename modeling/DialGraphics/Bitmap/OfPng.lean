import DialGraphics.Bitmap.Create
import DialGraphics.Png.Slices

/-!
# Bitmaps from PNGs

The first frame of a PNG as a bitmap. Gray and indexed images of up to four bits keep their packed
rows and get a palette; all others become one colour byte per pixel. For a legacy app every pixel
becomes light or dark. `sample` says what colour a pixel has, whatever the bitmap makes of it.
-/

namespace DialGraphics

namespace Png

/-- The value of `depth` bits at position `x` of a packed row, highest bits first; zero past its
end. -/
def packedValue (row : Array UInt8) (x depth : Nat) : Nat :=
  let perByte := 8 / depth
  let byte := (row[x / perByte]?.getD 0).toNat
  (byte >>> (8 - depth * (x % perByte + 1))) % Nat.pow 2 depth

/-- A value of `depth` bits spread over eight: its bits are repeated. -/
def spread (depth value : Nat) : UInt8 := UInt8.ofNat (value * 255 / (Nat.pow 2 depth - 1))

def sample (h : Header) (palette : List Rgba) (key : Option TransparentKey) (row : Array UInt8)
    (x : Nat) : Rgba :=
  let byte := fun i => row[i]?.getD 0
  match h.color with
  | .indexed => palette[packedValue row x h.depth]?.getD .transparent
  | .gray =>
    let v := packedValue row x h.depth
    if key = some (.gray v) then .transparent else .gray (spread h.depth v)
  | .grayAlpha =>
    let y := byte (2 * x)
    ⟨y, y, y, byte (2 * x + 1)⟩
  | .rgb =>
    let r := byte (3 * x)
    let g := byte (3 * x + 1)
    let b := byte (3 * x + 2)
    if key = some (.rgb r.toNat g.toNat b.toNat) then .transparent else ⟨r, g, b, 255⟩
  | .rgba => ⟨byte (4 * x), byte (4 * x + 1), byte (4 * x + 2), byte (4 * x + 3)⟩

def grayLevels (depth : Nat) (key : Option TransparentKey) : List Color :=
  (List.range (Nat.pow 2 depth)).map fun v =>
    if key = some (.gray v) then .clear else .ofGray (spread depth v) 255

end Png

namespace Bitmap

open Png (Frame Header TransparentKey)

def frameRows (frame : Frame) : List Bytes := Bytes.wholeGroups frame.rowStride frame.data

/-- A bitmap of a palette format with the packed rows of a frame. The palette is cut off or filled
up with transparent entries to the size of the format. -/
def ofPackedRows (frame : Frame) (size : Size) (format : PixelFormat) (colors : List Color) :
    Except DecodeError Bitmap :=
  (allocateBlank size format).map fun b =>
    let entries := colors.take format.paletteSize
    { b with
      pixels := .owned ((frameRows frame).map (Bytes.fit b.rowSize.toNat)).flatten
      palette := .given (.owned
        (entries ++ List.replicate (format.paletteSize - entries.length) .clear)) }

def ofColors (frame : Frame) (size : Size) (colorAt : Array UInt8 → Nat → Rgba) :
    Except DecodeError Bitmap :=
  (allocateBlank size .color).map fun b =>
    let width := b.rowSize.toNat
    { b with
      pixels := .owned ((frameRows frame).map fun row =>
        let cells := row.toArray
        (List.range width).map fun x => (Color.ofRgba (colorAt cells x)).argb).flatten }

/-- Byte `i` of a 1-bit row: bit `k` is set if pixel `8 i + k` is inside the row and light. -/
def lightByte (width : Nat) (isLight : Nat → Bool) (i : Nat) : UInt8 :=
  (List.range 8).foldl
    (fun byte k =>
      if 8 * i + k < width && isLight (8 * i + k) then byte ||| 1 <<< UInt8.ofNat k else byte) 0

def ofLight (frame : Frame) (size : Size) (colorAt : Array UInt8 → Nat → Rgba) :
    Except DecodeError Bitmap :=
  (allocateBlank size .mono).map fun b =>
    let width := size.w.toInt.toNat
    { b with
      pixels := .owned ((frameRows frame).map fun row =>
        let cells := row.toArray
        (List.range b.rowSize.toNat).map
          (lightByte width fun x => (colorAt cells x).isLight)).flatten }

def ofFrame (h : Header) (palette : List Rgba) (key : Option TransparentKey) (frame : Frame)
    (size : Size) (platform : Platform) : Except DecodeError Bitmap :=
  match platform.compat, h.color, PixelFormat.palettized? h.depth with
  | .legacy, _, _ => ofLight frame size (Png.sample h palette key)
  | .current, .indexed, some format => ofPackedRows frame size format (palette.map Color.ofRgba)
  | .current, .gray, some format => ofPackedRows frame size format (Png.grayLevels h.depth key)
  | .current, _, _ => ofColors frame size (Png.sample h palette key)

/-- The bitmap in the bytes of a PNG. A side that does not fit a coordinate is malformed. -/
def ofPng (bytes : Bytes) (platform : Platform) : Except DecodeError Bitmap :=
  match (Png.Decoder.ofBytes bytes).readHeader with
  | (.error e, _) => .error e.toDecodeError
  | (.ok h, d) =>
    match RawLayout.size? h.width h.height with
    | none => .error .malformed
    | some size =>
      match d.nextFrame with
      | (.error e, _) => .error e.toDecodeError
      | (.ok frame, d) => ofFrame h d.metadata.palette d.metadata.key frame size platform

/-- The same with the first frame inflated slice by slice. -/
def BySlices.ofPng (i : Deflate.Inflater) (bytes : Bytes) (platform : Platform) :
    Except DecodeError Bitmap :=
  match (Png.Decoder.ofBytes bytes).readHeader with
  | (.error e, _) => .error e.toDecodeError
  | (.ok h, d) =>
    match RawLayout.size? h.width h.height with
    | none => .error .malformed
    | some size =>
      match Png.Decoder.BySlices.nextFrame i d with
      | (.error e, _) => .error e.toDecodeError
      | (.ok frame, d) => ofFrame h d.metadata.palette d.metadata.key frame size platform

end Bitmap

end DialGraphics
