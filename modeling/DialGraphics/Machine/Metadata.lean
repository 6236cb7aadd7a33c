import DialGraphics.Machine.Basic
import DialGraphics.Png.Decoder

/-!
# Chunks and metadata in machine words

Chunks are cut off the file one after the other, and what stands in front of the image data is read
from them by position. A region is compared with the canvas by sums that may be too large for a
double word.
-/

namespace DialGraphics.Machine

open Png

/-! ### Chunks -/

def cut (n : Nat) (bytes : Bytes) : Fallible PngError (Bytes × Bytes) := do
  let parts ← pull? n bytes
  settled (orFail .malformed parts)

def pullWord (bytes : Bytes) : Fallible PngError (Nat × Bytes) := do
  let (front, rest) ← cut 4 bytes
  let (word, _) ← settled (orFail .malformed (Bytes.bigWord32? front))
  return (word, rest)

def pullTag (bytes : Bytes) : Fallible PngError (Tag × Bytes) := do
  let (front, rest) ← cut 4 bytes
  let (tag, _) ← settled (orFail .malformed (Tag.read? front))
  return (tag, rest)

def pullChunk (bytes : Bytes) : Fallible PngError (Chunk × Bytes) := do
  let (length, rest) ← pullWord bytes
  let (tag, rest) ← pullTag rest
  let (data, rest) ← cut length rest
  let (crc, rest) ← pullWord rest
  return (⟨tag, data, crc⟩, rest)

theorem cut_eq (n : Nat) (bytes : Bytes) :
    cut n bytes = settled (orFail .malformed (Bytes.splitAt? n bytes)) := by
  rw [cut, pull?_eq, lift_ok, settled_ok_bind]

theorem pullWord_eq (bytes : Bytes) :
    pullWord bytes = settled (orFail .malformed (Bytes.bigWord32? bytes)) := by
  rw [pullWord, cut_eq]
  match bytes with
  | [] | [_] | [_, _] | [_, _, _] => rfl
  | _ :: _ :: _ :: _ :: _ => rfl

theorem pullTag_eq (bytes : Bytes) :
    pullTag bytes = settled (orFail .malformed (Tag.read? bytes)) := by
  rw [pullTag, cut_eq]
  match bytes with
  | [] | [_] | [_, _] | [_, _, _] => rfl
  | _ :: _ :: _ :: _ :: _ => rfl

theorem pullChunk_eq (bytes : Bytes) :
    pullChunk bytes = settled (orFail .malformed (Chunk.pull? bytes)) := by
  unfold pullChunk Chunk.pull?
  simp only [Option.bind_eq_bind, settled_orFail_bind, pullWord_eq, pullTag_eq, cut_eq]
  rfl

def split (bytes : Bytes) : Checked (List Chunk × Bytes) :=
  match _h : (pullChunk bytes).run with
  | .error t => .error t
  | .ok (.error _) => .ok ([], bytes)
  | .ok (.ok (c, rest)) => do
    let (chunks, tail) ← split rest
    .ok (c :: chunks, tail)
termination_by bytes.length
decreasing_by
  rw [pullChunk_eq] at _h
  have hpull := orFail_eq_ok_iff.1 (Except.ok.inj _h)
  have := Chunk.length_of_pull? hpull
  omega

/-- The chunks behind the signature. -/
def ofBytes (bytes : Bytes) : Checked Decoder :=
  if isPng bytes then do
    let rest ← sliceFrom bytes 8
    let (chunks, _) ← split rest
    .ok { signed := true, chunks := chunks }
  else .ok { signed := false, chunks := [] }

/-! ### Palette and transparency -/

def paletteEntry (group : Bytes) : Checked Rgba := do
  let r ← get group 0
  let g ← get group 1
  let b ← get group 2
  .ok ⟨r, g, b, 255⟩

def paletteEntries (data : Bytes) : Checked (List Rgba) := do
  let (groups, _) ← wholeChunks 3 data
  groups.mapM paletteEntry

def withPalette (m : Metadata) (h : Header) (data : Bytes) : Fallible PngError Metadata :=
  let entries := data.length / 3
  if !m.palette.isEmpty ∨ data.length % 3 ≠ 0 ∨ entries = 0 ∨ 256 < entries
      ∨ h.color = .gray ∨ h.color = .grayAlpha then
    throw .malformed
  else if h.color = .indexed then do
    let palette ← paletteEntries data
    return { m with palette := palette }
  else return m

def bigWordAt (data : Bytes) (i : Nat) : Checked Nat := do
  let hi ← get data i
  let next ← add 64 i 1
  let lo ← get data next
  .ok (256 * hi.toNat + lo.toNat)

def withTransparency (m : Metadata) (h : Header) (data : Bytes) : Fallible PngError Metadata :=
  match h.color with
  | .indexed =>
    if !m.palette.isEmpty ∧ data.length ≤ m.palette.length then
      return { m with palette := Metadata.withAlphas m.palette data }
    else throw .malformed
  | .gray =>
    if data.length = 2 then do
      let y ← bigWordAt data 0
      return { m with key := some (.gray y) }
    else throw .malformed
  | .rgb =>
    if data.length = 6 then do
      let r ← bigWordAt data 0
      let g ← bigWordAt data 2
      let b ← bigWordAt data 4
      return { m with key := some (.rgb r g b) }
    else throw .malformed
  | _ => throw .malformed

/-! ### Animation control -/

def animationControl (c : Chunk) : Fallible PngError AnimationControl :=
  if c.tag ≠ Tag.actl ∨ c.data.length ≠ 8 then throw .malformed
  else do
    let (frames, rest) ← pullWord c.data
    let (plays, _) ← pullWord rest
    if frames = 0 then throw .malformed else return ⟨frames, plays⟩

def fits (f : FrameControl) (canvasWidth canvasHeight : Nat) : Bool :=
  f.width ≠ 0 && f.height ≠ 0 && (sum? 32 f.x f.width).any (· ≤ canvasWidth)
    && (sum? 32 f.y f.height).any (· ≤ canvasHeight)

def frameControl (c : Chunk) (canvasWidth canvasHeight : Nat) : Fallible PngError FrameControl :=
  if c.tag ≠ Tag.fctl ∨ c.data.length ≠ 26 then throw .malformed
  else do
    let (raw, _) ← cut 26 c.data
    let f ← settled (orFail .malformed (FrameControl.read? raw))
    if fits f canvasWidth canvasHeight then return f else throw .malformed

/-! ### In front of the image data -/

def absorb (h : Header) (m : Metadata) (c : Chunk) : Fallible PngError Metadata :=
  if c.tag = Tag.plte then withPalette m h c.data
  else if c.tag = Tag.trns then withTransparency m h c.data
  else if c.tag = Tag.actl then do
    let a ← animationControl c
    return { m with animation := some a }
  else if c.tag = Tag.fctl then do
    let f ← frameControl c h.width h.height
    if f.covers h.width h.height then return { m with control := some f } else throw .malformed
  else if Metadata.isMisplaced c.tag then throw .malformed
  else if c.tag.isAncillary then return m
  else throw .unsupportedChunk

def scan (h : Header) (m : Metadata) :
    List Chunk → Checked (Metadata × Except PngError (List Chunk))
  | [] => .ok (m, .error .malformed)
  | c :: rest =>
    if c.tag = Tag.idat then .ok (m, .ok (c :: rest))
    else do
      match ← (absorb h m c).run with
      | .error e => .ok (m, .error e)
      | .ok m => scan h m rest

end DialGraphics.Machine
