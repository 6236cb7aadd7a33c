import DialGraphics.Allocation
import DialGraphics.Color
import DialGraphics.Deflate.Zlib
import DialGraphics.Png.Animation
import DialGraphics.Png.Filter
import DialGraphics.Png.Header

/-!
# Frames

A frame is decoded from one run of data chunks: their payloads are joined into one compressed
stream, which has to yield one line per row, and the lines are unfiltered into packed rows.
-/

namespace DialGraphics.Png

/-- The colour of a gray or RGB image that stands for full transparency. -/
inductive TransparentKey
  | gray (y : Nat)
  | rgb (r g b : Nat)
  deriving DecidableEq, Repr

structure Frame where
  /-- Packed rows at the depth of the image; unused bits at the end of a row are zero. -/
  data : Bytes
  rowStride : Nat
  x : Nat
  y : Nat
  width : Nat
  height : Nat
  /-- Milliseconds to show the frame, `0` for a still image. -/
  delay : Nat
  dispose : Dispose
  blend : Blend
  deriving DecidableEq, Repr

def filteredSize (rowStride height : Nat) : Nat := (rowStride + 1) * height

def decodeRows (h : Header) (width height : Nat) (stream : Bytes) : Except PngError Bytes :=
  let stride := h.rowStride width
  let size := filteredSize stride height
  if allocationLimit ≤ size then .error .outOfMemory
  else
    match Deflate.Zlib.inflate? size stream with
    | none => .error .malformed
    | some lines =>
      match unfilter lines stride h.filterUnit with
      | (.error _, _) => .error .malformed
      | (.ok (), lines) =>
        .ok (clearPadding (stripFilterNumbers lines stride) stride (h.bitsPerPixel * width))

/-- The frame in a compressed stream. Without frame control it is a still image on the whole canvas.
-/
def Frame.decode (h : Header) (control : Option FrameControl) (stream : Bytes) :
    Except PngError Frame :=
  match control with
  | none =>
    (decodeRows h h.width h.height stream).map fun data =>
      ⟨data, h.rowStride h.width, 0, 0, h.width, h.height, 0, .keep, .source⟩
  | some f =>
    (decodeRows h f.width f.height stream).map fun data =>
      ⟨data, h.rowStride f.width, f.x, f.y, f.width, f.height, f.delay, f.dispose, f.blend⟩

/-! ### Runs of data chunks -/

def sequenceNumberSize : Nat := 4

def payload? (c : Chunk) : Option Bytes :=
  if c.tag = Tag.fdat then
    if c.data.length < sequenceNumberSize then none else some (c.data.drop sequenceNumberSize)
  else some c.data

/-- The joined payloads of the first chunk and the chunks of the same tag right after it, with the
chunks that follow. -/
def dataRun? (chunks : List Chunk) : Option (Bytes × List Chunk) :=
  match chunks with
  | [] => none
  | first :: _ =>
    let run := chunks.takeWhile (·.tag = first.tag)
    (run.mapM payload?).map fun payloads =>
      (payloads.flatten, chunks.dropWhile (·.tag = first.tag))

end DialGraphics.Png
