import DialGraphics.Png.Frame

/-!
# Metadata

What stands between the header and the first image data: the palette with its transparency, the
transparent colour, and the animation control. `scan` reads chunk by chunk up to the first data
chunk; what it has gathered stays visible even where it fails.
-/

namespace DialGraphics.Png

/-- What is known about an image before its first data. -/
structure Metadata where
  /-- The palette of an indexed image, with transparency applied. -/
  palette : List Rgba := []
  /-- The transparent colour of a gray or RGB image. -/
  key : Option TransparentKey := none
  animation : Option AnimationControl := none
  /-- The frame control that waits for its image data. -/
  control : Option FrameControl := none
  deriving DecidableEq, Repr

namespace Metadata

def paletteEntries (data : Bytes) : List Rgba :=
  (Bytes.wholeGroups 3 data).filterMap fun
    | [r, g, b] => some ⟨r, g, b, 255⟩
    | _ => none

def withPalette (m : Metadata) (h : Header) (data : Bytes) : Except PngError Metadata :=
  let entries := data.length / 3
  if !m.palette.isEmpty ∨ data.length % 3 ≠ 0 ∨ entries = 0 ∨ 256 < entries
      ∨ h.color = .gray ∨ h.color = .grayAlpha then
    .error .malformed
  else if h.color = .indexed then .ok { m with palette := paletteEntries data }
  else .ok m

def withAlphas : List Rgba → Bytes → List Rgba
  | c :: cs, a :: as => { c with a := a } :: withAlphas cs as
  | cs, _ => cs

def withTransparency (m : Metadata) (h : Header) (data : Bytes) : Except PngError Metadata :=
  match h.color, data with
  | .indexed, _ =>
    if !m.palette.isEmpty ∧ data.length ≤ m.palette.length then
      .ok { m with palette := withAlphas m.palette data }
    else .error .malformed
  | .gray, [y1, y0] => .ok { m with key := some (.gray (256 * y1.toNat + y0.toNat)) }
  | .rgb, [r1, r0, g1, g0, b1, b0] =>
    .ok { m with
      key := some (.rgb (256 * r1.toNat + r0.toNat) (256 * g1.toNat + g0.toNat)
        (256 * b1.toNat + b0.toNat)) }
  | _, _ => .error .malformed

/-- Whether a chunk has a place in front of the image data only, or none there. -/
def isMisplaced (tag : Tag) : Bool := tag == Tag.ihdr || tag == Tag.iend || tag == Tag.fdat

/-- Takes in one chunk in front of the image data. The frame control of the default image has to
cover all of it. Unknown chunks are skipped if that is safe. -/
def absorb (h : Header) (m : Metadata) (c : Chunk) : Except PngError Metadata :=
  if c.tag = Tag.plte then m.withPalette h c.data
  else if c.tag = Tag.trns then m.withTransparency h c.data
  else if c.tag = Tag.actl then
    (AnimationControl.ofChunk c).map fun a => { m with animation := some a }
  else if c.tag = Tag.fctl then
    match FrameControl.ofChunk c h.width h.height with
    | .error e => .error e
    | .ok f =>
      if f.covers h.width h.height then .ok { m with control := some f } else .error .malformed
  else if isMisplaced c.tag then .error .malformed
  else if c.tag.isAncillary then .ok m
  else .error .unsupportedChunk

def scan (h : Header) (m : Metadata) : List Chunk → Metadata × Except PngError (List Chunk)
  | [] => (m, .error .malformed)
  | c :: rest =>
    if c.tag = Tag.idat then (m, .ok (c :: rest))
    else
      match absorb h m c with
      | .error e => (m, .error e)
      | .ok m => scan h m rest

/-- Whether the gathered chunks belong together: an indexed image has a palette, and frame control
comes with animation control. -/
def isComplete (h : Header) (m : Metadata) : Bool :=
  !(h.color == .indexed && m.palette.isEmpty) && !(m.control.isSome && m.animation.isNone)

/-- The largest number of frames, the largest double word. -/
def maxFrames : Nat := 4294967295

/-- The number of frames to expect. The default image of an animation is one of its frames exactly
if it has frame control. -/
def totalFrames (m : Metadata) : Nat :=
  match m.animation with
  | none => 1
  | some a => if m.control.isSome then a.frames else min (a.frames + 1) maxFrames

end Metadata

end DialGraphics.Png
