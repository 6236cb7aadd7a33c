import DialGraphics.DecodeError
import DialGraphics.Png.Chunk

/-!
# Animation control

The chunks that turn a PNG into an animation: how many frames there are, and where, how long and how
each of them is shown.
-/

namespace DialGraphics.Png

/-- How many frames an animation has, and how often it plays (`0` for ever). -/
structure AnimationControl where
  frames : Nat
  plays : Nat
  deriving DecidableEq, Repr

/-- The animation control in a chunk. An animation without frames is malformed. -/
def AnimationControl.ofChunk (c : Chunk) : Except PngError AnimationControl :=
  if c.tag ≠ Tag.actl ∨ c.data.length ≠ 8 then .error .malformed
  else
    match Bytes.bigWord32? c.data with
    | none => .error .malformed
    | some (frames, rest) =>
      match Bytes.bigWord32? rest with
      | none => .error .malformed
      | some (plays, _) => if frames = 0 then .error .malformed else .ok ⟨frames, plays⟩

def AnimationControl.toData (a : AnimationControl) : Bytes :=
  Bytes.ofBigWord32 a.frames ++ Bytes.ofBigWord32 a.plays

/-- What becomes of a frame's region before the next frame is drawn. -/
inductive Dispose
  | keep
  | background
  | previous
  deriving DecidableEq, Repr

def Dispose.ofNumber? : Nat → Option Dispose
  | 0 => some .keep
  | 1 => some .background
  | 2 => some .previous
  | _ => none

def Dispose.number : Dispose → Nat
  | .keep => 0
  | .background => 1
  | .previous => 2

/-- How a frame's pixels join what is on the canvas. -/
inductive Blend
  | source
  | over
  deriving DecidableEq, Repr

def Blend.ofNumber? : Nat → Option Blend
  | 0 => some .source
  | 1 => some .over
  | _ => none

def Blend.number : Blend → Nat
  | .source => 0
  | .over => 1

structure FrameControl where
  sequence : Nat
  width : Nat
  height : Nat
  x : Nat
  y : Nat
  delayNum : Nat
  delayDen : Nat
  dispose : Dispose
  blend : Blend
  deriving DecidableEq, Repr

namespace FrameControl

def fits (f : FrameControl) (canvasWidth canvasHeight : Nat) : Bool :=
  f.width ≠ 0 && f.height ≠ 0 && f.x + f.width ≤ canvasWidth && f.y + f.height ≤ canvasHeight

def read? (data : Bytes) : Option FrameControl := do
  let (sequence, rest) ← Bytes.bigWord32? data
  let (width, rest) ← Bytes.bigWord32? rest
  let (height, rest) ← Bytes.bigWord32? rest
  let (x, rest) ← Bytes.bigWord32? rest
  let (y, rest) ← Bytes.bigWord32? rest
  let (delayNum, rest) ← Bytes.bigWord16? rest
  let (delayDen, rest) ← Bytes.bigWord16? rest
  match rest with
  | [dispose, blend] =>
    return ⟨sequence, width, height, x, y, delayNum, delayDen,
      ← Dispose.ofNumber? dispose.toNat, ← Blend.ofNumber? blend.toNat⟩
  | _ => none

def ofChunk (c : Chunk) (canvasWidth canvasHeight : Nat) : Except PngError FrameControl :=
  if c.tag ≠ Tag.fctl then .error .malformed
  else
    match read? c.data with
    | none => .error .malformed
    | some f => if f.fits canvasWidth canvasHeight then .ok f else .error .malformed

def toData (f : FrameControl) : Bytes :=
  Bytes.ofBigWord32 f.sequence ++ Bytes.ofBigWord32 f.width ++ Bytes.ofBigWord32 f.height
    ++ Bytes.ofBigWord32 f.x ++ Bytes.ofBigWord32 f.y
    ++ Bytes.ofBigWord16 f.delayNum ++ Bytes.ofBigWord16 f.delayDen
    ++ [UInt8.ofNat f.dispose.number, UInt8.ofNat f.blend.number]

def covers (f : FrameControl) (canvasWidth canvasHeight : Nat) : Bool :=
  f.x == 0 && f.y == 0 && f.width == canvasWidth && f.height == canvasHeight

end FrameControl

/-- Milliseconds for a delay of `num / den` seconds; hundredths of a second where `den` is zero. -/
def delayMs (num den : Nat) : Nat := num * 1000 / (if den = 0 then 100 else den)

def FrameControl.delay (f : FrameControl) : Nat := delayMs f.delayNum f.delayDen

end DialGraphics.Png
