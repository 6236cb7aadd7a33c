import DialGraphics.Png.Metadata

/-!
# The step-by-step decoder

Three operations, each of which first does the ones before it: read the header, read the metadata,
decode the next frame. The first error stops the decoder, and every later operation gives it again.
Running out of frames is no such error.
-/

namespace DialGraphics.Png

/-- How far a decoder has come. -/
inductive Stage
  | fresh
  | header
  | loaded
  | decoded
  | failed
  deriving DecidableEq, Repr

structure Decoder where
  signed : Bool
  chunks : List Chunk
  stage : Stage := .fresh
  header : Option Header := none
  metadata : Metadata := {}
  totalFrames : Nat := 0
  framesDecoded : Nat := 0
  /-- The cause of the first failure. The line of the decoder that raised it is kept beside it for
  reports; it is left out here, as no step reads it. -/
  error : Option PngError := none
  deriving DecidableEq, Repr

namespace Decoder

def ofBytes (bytes : Bytes) : Decoder :=
  if isPng bytes then { signed := true, chunks := (Chunk.split (bytes.drop 8)).1 }
  else { signed := false, chunks := [] }

/-- The frames that can still be had; unknown before the metadata is read and after an error. -/
def framesRemaining (d : Decoder) : Option Nat :=
  match d.stage with
  | .loaded | .decoded => some (d.totalFrames - d.framesDecoded)
  | _ => none

def fail (d : Decoder) (e : PngError) : Decoder :=
  { d with stage := .failed, error := d.error <|> some e }

def retainedError (d : Decoder) : PngError := d.error.getD .malformed

/-! ### Header -/

/-- Checks the signature and reads the header. Once that is done it gives the header again. -/
def readHeader (d : Decoder) : Except PngError Header × Decoder :=
  match d.stage, d.header with
  | .failed, _ => (.error d.retainedError, d)
  | _, some h => (.ok h, d)
  | _, none =>
    if !d.signed then (.error .notPng, d.fail .notPng)
    else
      match d.chunks with
      | [] => (.error .malformed, d.fail .malformed)
      | c :: rest =>
        match Header.ofChunk c with
        | .error e => (.error e, { d with chunks := rest }.fail e)
        | .ok h => (.ok h, { d with chunks := rest, stage := .header, header := some h })

/-! ### Metadata -/

def scanMetadata (d : Decoder) (h : Header) : Except PngError Unit × Decoder :=
  match Metadata.scan h d.metadata d.chunks with
  | (m, .error e) => (.error e, { d with metadata := m }.fail e)
  | (m, .ok rest) =>
    let d := { d with metadata := m, chunks := rest }
    if m.isComplete h then
      (.ok (), { d with totalFrames := m.totalFrames, stage := .loaded })
    else (.error .malformed, d.fail .malformed)

def readMetadata (d : Decoder) : Except PngError Unit × Decoder :=
  match d.stage with
  | .failed => (.error d.retainedError, d)
  | .loaded | .decoded => (.ok (), d)
  | .fresh | .header =>
    match d.readHeader with
    | (.error e, d) => (.error e, d)
    | (.ok h, d) => d.scanMetadata h

/-! ### Frames -/

/-- What comes next among the chunks between two frames. -/
inductive Seek
  | data (control : Option FrameControl) (chunks : List Chunk)
  | ended (control : Option FrameControl) (chunks : List Chunk)
  | failed (e : PngError)
  deriving DecidableEq, Repr

/-- Whether a tag has a meaning of its own, so that it is never skipped. -/
def isKnown (tag : Tag) : Bool :=
  [Tag.ihdr, Tag.plte, Tag.idat, Tag.iend, Tag.trns, Tag.actl, Tag.fctl, Tag.fdat].contains tag

/-- Looks for the data of the next frame. `first` says that no frame has been decoded yet,
`animated` that there is animation control, and `control` is the frame control read so far. The
default image is in chunks of its own kind, and each later frame needs frame control first. -/
def seek (h : Header) (first animated : Bool) (control : Option FrameControl) : List Chunk → Seek
  | [] => .failed .malformed
  | c :: rest =>
    if c.tag = Tag.idat ∧ first then .data control (c :: rest)
    else if c.tag = Tag.fdat ∧ !first ∧ control.isSome then .data control (c :: rest)
    else if c.tag = Tag.fctl ∧ animated ∧ control.isNone then
      match FrameControl.ofChunk c h.width h.height with
      | .error e => .failed e
      | .ok f => seek h first animated (some f) rest
    else if c.tag = Tag.iend then .ended control rest
    else if isKnown c.tag then .failed .malformed
    else if c.tag.isAncillary then seek h first animated control rest
    else .failed .unsupportedChunk

def decodeNext (d : Decoder) (h : Header) : Except PngError Frame × Decoder :=
  if d.totalFrames ≤ d.framesDecoded then (.error .endOfStream, d)
  else
    match seek h (d.framesDecoded == 0) d.metadata.animation.isSome d.metadata.control d.chunks with
    | .failed e => (.error e, d.fail e)
    | .ended control rest =>
      (.error .endOfStream,
        { d with
          metadata := { d.metadata with control := control }
          chunks := rest
          totalFrames := d.framesDecoded })
    | .data control chunks =>
      let d := { d with metadata := { d.metadata with control := none } }
      match dataRun? chunks with
      | none => (.error .malformed, d.fail .malformed)
      | some (stream, rest) =>
        let d := { d with chunks := rest }
        match Frame.decode h control stream with
        | .error e => (.error e, d.fail e)
        | .ok frame =>
          (.ok frame, { d with framesDecoded := d.framesDecoded + 1, stage := .decoded })

/-- Decodes the next frame. Once all frames are decoded it gives `endOfStream`, and the decoder
stays as it is. -/
def nextFrame (d : Decoder) : Except PngError Frame × Decoder :=
  match d.stage with
  | .failed => (.error d.retainedError, d)
  | _ =>
    match d.readMetadata with
    | (.error e, d) => (.error e, d)
    | (.ok (), d) =>
      match d.header with
      | none => (.error .badParameter, d.fail .badParameter)
      | some h => d.decodeNext h

/-! ### Runs -/

inductive Operation
  | header
  | metadata
  | frame
  deriving DecidableEq, Repr

inductive Outcome
  | header (result : Except PngError Header)
  | metadata (result : Except PngError Unit)
  | frame (result : Except PngError Frame)

def perform (d : Decoder) : Operation → Outcome × Decoder
  | .header => (.header d.readHeader.1, d.readHeader.2)
  | .metadata => (.metadata d.readMetadata.1, d.readMetadata.2)
  | .frame => (.frame d.nextFrame.1, d.nextFrame.2)

def performAll (d : Decoder) : List Operation → List Outcome × Decoder
  | [] => ([], d)
  | op :: ops =>
    let (outcome, d) := d.perform op
    let (outcomes, d) := d.performAll ops
    (outcome :: outcomes, d)

end Decoder

end DialGraphics.Png
