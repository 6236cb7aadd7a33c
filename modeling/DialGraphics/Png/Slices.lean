import DialGraphics.Deflate.Slices
import DialGraphics.Png.Decoder

/-!
# Image data in slices

The payloads of a run of data chunks are never joined. The chunks are gone over once to find the end
of the run, and once more to hand each payload to an inflater. The inflater is a parameter.
-/

namespace DialGraphics.Png

/-- The chunks behind the run of a tag. A chunk without its sequence number spoils the run. -/
def behindRun? (tag : Tag) : List Chunk → Option (List Chunk)
  | [] => some []
  | c :: rest =>
    if c.tag ≠ tag then some (c :: rest)
    else if tag = Tag.fdat ∧ c.data.length < sequenceNumberSize then none
    else behindRun? tag rest

def slices (tag : Tag) : List Chunk → List Bytes
  | [] => []
  | c :: rest =>
    if c.tag ≠ tag then []
    else
      match payload? c with
      | none => []
      | some slice => slice :: slices tag rest

/-- Decodes rows from lines that are there for a given size, or are not. -/
def decodeLines (lines? : Nat → Option Bytes) (h : Header) (width height : Nat) :
    Except PngError Bytes :=
  let stride := h.rowStride width
  let size := filteredSize stride height
  if allocationLimit ≤ size then .error .outOfMemory
  else
    match lines? size with
    | none => .error .malformed
    | some lines =>
      match unfilter lines stride h.filterUnit with
      | (.error _, _) => .error .malformed
      | (.ok (), lines) =>
        .ok (clearPadding (stripFilterNumbers lines stride) stride (h.bitsPerPixel * width))

def Frame.decodeLines (lines? : Nat → Option Bytes) (h : Header) (control : Option FrameControl) :
    Except PngError Frame :=
  match control with
  | none =>
    (Png.decodeLines lines? h h.width h.height).map fun data =>
      ⟨data, h.rowStride h.width, 0, 0, h.width, h.height, 0, .keep, .source⟩
  | some f =>
    (Png.decodeLines lines? h f.width f.height).map fun data =>
      ⟨data, h.rowStride f.width, f.x, f.y, f.width, f.height, f.delay, f.dispose, f.blend⟩

namespace Decoder.BySlices

variable (i : Deflate.Inflater)

def decodeRun (d : Decoder) (h : Header) (control : Option FrameControl) :
    List Chunk → Except PngError Frame × Decoder
  | [] => (.error .malformed, d.fail .malformed)
  | first :: others =>
    match behindRun? first.tag (first :: others) with
    | none => (.error .malformed, d.fail .malformed)
    | some rest =>
      let d := { d with chunks := rest }
      match Frame.decodeLines (i.inflate? · (slices first.tag (first :: others))) h control with
      | .error e => (.error e, d.fail e)
      | .ok frame => (.ok frame, { d with framesDecoded := d.framesDecoded + 1, stage := .decoded })

def decodeNext (d : Decoder) (h : Header) : Except PngError Frame × Decoder :=
  if d.totalFrames ≤ d.framesDecoded then (.error .endOfStream, d)
  else
    match seek h (d.framesDecoded == 0) d.metadata.animation.isSome d.metadata.control d.chunks with
    | .failed e => (.error e, d.fail e)
    | .ended control rest =>
      (.error .endOfStream,
        { d with
          metadata := { d.metadata with control := control }
          chunks := rest
          totalFrames := d.framesDecoded })
    | .data control chunks =>
      decodeRun i { d with metadata := { d.metadata with control := none } } h control chunks

def nextFrame (d : Decoder) : Except PngError Frame × Decoder :=
  match d.stage with
  | .failed => (.error d.retainedError, d)
  | _ =>
    match d.readMetadata with
    | (.error e, d) => (.error e, d)
    | (.ok (), d) =>
      match d.header with
      | none => (.error .badParameter, d.fail .badParameter)
      | some h => decodeNext i d h

def perform (d : Decoder) : Operation → Outcome × Decoder
  | .header => (.header d.readHeader.1, d.readHeader.2)
  | .metadata => (.metadata d.readMetadata.1, d.readMetadata.2)
  | .frame => (.frame (nextFrame i d).1, (nextFrame i d).2)

def performAll (d : Decoder) : List Operation → List Outcome × Decoder
  | [] => ([], d)
  | op :: ops =>
    let (outcome, d) := perform i d op
    let (outcomes, d) := performAll d ops
    (outcome :: outcomes, d)

end Decoder.BySlices

end DialGraphics.Png
