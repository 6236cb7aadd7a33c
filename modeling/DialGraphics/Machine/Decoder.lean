import DialGraphics.Machine.Filter
import DialGraphics.Machine.Metadata
import DialGraphics.Png.Slices

/-!
# The decoder in machine words

The step-by-step decoder with the sizes of rows and buffers computed as addresses. A size that is no
address is a lack of memory; every other operation that does not fit stops the machine. An image is
inflated slice by slice, by an inflater that is given.
-/

namespace DialGraphics.Machine

open Png

variable (i : Deflate.Inflater)

/-! ### Rows -/

def bitsPerPixel (h : Header) : Checked Nat := mul 64 h.depth h.color.channels

def filterUnit (h : Header) : Checked Nat := do
  let bits ← bitsPerPixel h
  .ok (if bits / 8 = 0 then 1 else bits / 8)

def packedStride (h : Header) (width : Nat) : Fallible PngError Nat := do
  let bits ← bitsPerPixel h
  let stride := (product? 64 bits width).bind fun used => (sum? 64 used 7).map (· / 8)
  settled (orFail .outOfMemory stride)

/-- A buffer for lines of a filter number and a row each. -/
def lineBuffer (stride height : Nat) : Fallible PngError Bytes := do
  let size ← settled (orFail .outOfMemory ((sum? 64 stride 1).bind (product? 64 · height)))
  settled ((allocate size).mapError DecodeError.toPngError)

def inflateFrom (size : Nat) (state : i.State) (out : Bytes) :
    List Bytes → Fallible PngError Bytes
  | [] => throw .malformed
  | slice :: slices => do
    let report := i.feed state size out slice (!slices.isEmpty)
    let pos ← add 64 out.length report.written.length
    let out := out ++ report.written
    match report.status with
    | .done => if pos = size then return out else throw .malformed
    | .needsMoreInput => inflateFrom size report.state out slices
    | .hasMoreOutput =>
      if !slices.isEmpty ∧ pos = size ∧ report.read = slice.length then
        inflateFrom size report.state out slices
      else throw .malformed
    | .failed => throw .malformed

def decodeRows (h : Header) (stride width height : Nat) (slices : List Bytes) :
    Fallible PngError Bytes := do
  let buffer ← lineBuffer stride height
  let lines ← inflateFrom i buffer.length i.start [] slices
  let unit ← filterUnit h
  let lines ← unfilter lines stride unit
  let rows ← stripFilterNumbers lines stride
  let bits ← bitsPerPixel h
  let used ← mul 64 bits width
  clearPadding rows stride used

def delayMs (num den : Nat) : Checked Nat := do
  let thousandths ← mul 32 num 1000
  div thousandths (if den = 0 then 100 else den)

def decodeFrame (h : Header) (control : Option FrameControl) (slices : List Bytes) :
    Fallible PngError Frame :=
  match control with
  | none => do
    let stride ← packedStride h h.width
    let data ← decodeRows i h stride h.width h.height slices
    return ⟨data, stride, 0, 0, h.width, h.height, 0, .keep, .source⟩
  | some f => do
    let stride ← packedStride h f.width
    let data ← decodeRows i h stride f.width f.height slices
    let delay ← delayMs f.delayNum f.delayDen
    return ⟨data, stride, f.x, f.y, f.width, f.height, delay, f.dispose, f.blend⟩

/-! ### Metadata -/

def scanMetadata (d : Decoder) (h : Header) : Checked (Except PngError Unit × Decoder) := do
  match ← scan h d.metadata d.chunks with
  | (m, .error e) => .ok (.error e, { d with metadata := m }.fail e)
  | (m, .ok rest) =>
    let d := { d with metadata := m, chunks := rest }
    if m.isComplete h then
      .ok (.ok (), { d with totalFrames := m.totalFrames, stage := .loaded })
    else .ok (.error .malformed, d.fail .malformed)

def readMetadata (d : Decoder) : Checked (Except PngError Unit × Decoder) :=
  match d.stage with
  | .failed => .ok (.error d.retainedError, d)
  | .loaded | .decoded => .ok (.ok (), d)
  | .fresh | .header =>
    match d.readHeader with
    | (.error e, d) => .ok (.error e, d)
    | (.ok h, d) => scanMetadata d h

/-! ### Frames -/

def seek (h : Header) (first animated : Bool) (control : Option FrameControl) :
    List Chunk → Checked Decoder.Seek
  | [] => .ok (.failed .malformed)
  | c :: rest =>
    if c.tag = Tag.idat ∧ first then .ok (.data control (c :: rest))
    else if c.tag = Tag.fdat ∧ !first ∧ control.isSome then .ok (.data control (c :: rest))
    else if c.tag = Tag.fctl ∧ animated ∧ control.isNone then do
      match ← (frameControl c h.width h.height).run with
      | .error e => .ok (.failed e)
      | .ok f => seek h first animated (some f) rest
    else if c.tag = Tag.iend then .ok (.ended control rest)
    else if Decoder.isKnown c.tag then .ok (.failed .malformed)
    else if c.tag.isAncillary then seek h first animated control rest
    else .ok (.failed .unsupportedChunk)

def decodeRun (d : Decoder) (h : Header) (control : Option FrameControl) :
    List Chunk → Checked (Except PngError Frame × Decoder)
  | [] => .ok (.error .malformed, d.fail .malformed)
  | first :: others =>
    match behindRun? first.tag (first :: others) with
    | none => .ok (.error .malformed, d.fail .malformed)
    | some rest => do
      let d := { d with chunks := rest }
      match ← (decodeFrame i h control (slices first.tag (first :: others))).run with
      | .error e => .ok (.error e, d.fail e)
      | .ok frame => do
        let framesDecoded ← add 32 d.framesDecoded 1
        .ok (.ok frame, { d with framesDecoded := framesDecoded, stage := .decoded })

def decodeNext (d : Decoder) (h : Header) : Checked (Except PngError Frame × Decoder) :=
  if d.totalFrames ≤ d.framesDecoded then .ok (.error .endOfStream, d)
  else do
    match ← seek h (d.framesDecoded == 0) d.metadata.animation.isSome d.metadata.control
      d.chunks with
    | .failed e => .ok (.error e, d.fail e)
    | .ended control rest =>
      .ok (.error .endOfStream,
        { d with
          metadata := { d.metadata with control := control }
          chunks := rest
          totalFrames := d.framesDecoded })
    | .data control chunks =>
      decodeRun i { d with metadata := { d.metadata with control := none } } h control chunks

def nextFrame (d : Decoder) : Checked (Except PngError Frame × Decoder) :=
  match d.stage with
  | .failed => .ok (.error d.retainedError, d)
  | _ => do
    match ← readMetadata d with
    | (.error e, d) => .ok (.error e, d)
    | (.ok (), d) =>
      match d.header with
      | none => .ok (.error .badParameter, d.fail .badParameter)
      | some h => decodeNext i d h

/-! ### Runs -/

def perform (d : Decoder) : Decoder.Operation → Checked (Decoder.Outcome × Decoder)
  | .header => .ok (.header d.readHeader.1, d.readHeader.2)
  | .metadata => do
    let (result, d) ← readMetadata d
    .ok (.metadata result, d)
  | .frame => do
    let (result, d) ← nextFrame i d
    .ok (.frame result, d)

def performAll (d : Decoder) : List Decoder.Operation → Checked (List Decoder.Outcome × Decoder)
  | [] => .ok ([], d)
  | op :: ops => do
    let (outcome, d) ← perform i d op
    let (outcomes, d) ← performAll d ops
    .ok (outcome :: outcomes, d)

end DialGraphics.Machine
