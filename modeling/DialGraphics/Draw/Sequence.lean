import DialGraphics.Draw.Canvas
import DialGraphics.Draw.Container

/-!
# Draw command sequences

After the version and the canvas size a sequence has a play count, a frame count, and that many
frames up to the last byte. A play count of `65535` plays for ever. What is shown at a time is found
by dividing the time into passes through all frames.
-/

namespace DialGraphics.Draw

structure Sequence where
  backing : Backing

namespace Sequence

/-- The play count that plays for ever. -/
def endless : UInt16 := 65535

def endlessDuration : Nat := 4294967295

def playCountOffset : Nat := 6

def frameCountOffset : Nat := 8

def headerSize : Nat := 10

/-! ### Checking -/

def framesFill : Nat → Bytes → Bool
  | 0, bytes => bytes.isEmpty
  | n + 1, bytes =>
    match frameSize? bytes with
    | none => false
    | some size => framesFill n (bytes.drop size)

def validate (bytes : Bytes) : Except DecodeError Unit :=
  match readPrologue? bytes with
  | some (_, _, _ :: _ :: n0 :: n1 :: frames) =>
    let count := Bytes.word16 n0 n1
    if count ≠ 0 ∧ framesFill count.toNat frames then .ok () else .error .malformed
  | _ => .error .malformed

def ofBytes (bytes : Bytes) : Except DecodeError Sequence :=
  (validate bytes).map fun _ => ⟨.owned bytes⟩

def ofResource (m : ResourceMap) (key : ResourceKey) : Except DecodeError Sequence × ResourceMap :=
  match loadFile m key Tag.drawSequence validate with
  | (.error e, m) => (.error e, m)
  | (.ok backing, m) => (.ok ⟨backing⟩, m)

/-! ### Reading -/

def toBytes (s : Sequence) : Bytes := s.backing.toBytes

def copy (s : Sequence) : Sequence := ⟨.owned s.toBytes⟩

def headerWord (s : Sequence) (pos : Nat) : UInt16 :=
  match Bytes.word16? (s.toBytes.drop pos) with
  | some (v, _) => v
  | none => 0

def playCount (s : Sequence) : UInt16 := s.headerWord playCountOffset

def frameCount (s : Sequence) : UInt16 := s.headerWord frameCountOffset

def frames (s : Sequence) : List Frame := Frame.walk s.frameCount.toNat (s.toBytes.drop headerSize)

def frame? (s : Sequence) (i : Nat) : Option Frame := s.frames[i]?

def forEach {σ : Type} (s : Sequence) (op : Nat → Frame → σ → Bool × σ) (state : σ) : Bool × σ :=
  visit op 1 s.frames state

def encode (version : UInt8) (canvas : Size) (playCount : UInt16)
    (frames : List (UInt16 × List Command)) : Bytes :=
  encodePrologue version canvas ++ Bytes.ofWord16 playCount
    ++ Bytes.ofWord16 (UInt16.ofNat frames.length)
    ++ (frames.map fun f => Frame.encode f.1 f.2).flatten

/-! ### Time -/

def passDuration (s : Sequence) : Nat := s.frames.foldr (fun f t => f.duration.toNat + t) 0

/-- The duration of all passes, cut off at the longest one that there is. -/
def totalDuration (s : Sequence) : Nat :=
  if s.playCount = endless then endlessDuration
  else min (s.passDuration * s.playCount.toNat) endlessDuration

def frameWithin? (t : Nat) : List Frame → Option Frame
  | [] => none
  | f :: fs => if t < f.duration.toNat then some f else frameWithin? (t - f.duration.toNat) fs

/-- The frame that is shown some time after the start. A finite sequence stays on its last frame
once all passes are over, and so does one whose frames take no time. -/
def frameAt? (s : Sequence) (elapsed : Nat) : Option Frame :=
  let frames := s.frames
  if s.playCount ≠ endless ∧ s.totalDuration ≤ elapsed then frames.getLast?
  else if s.passDuration = 0 then frames.getLast?
  else
    match frameWithin? (elapsed % s.passDuration) frames with
    | some f => some f
    | none => frames.getLast?

def drawAt (s : Sequence) (offset : Point) (elapsed : Nat) :
    List Call × Except DecodeError Unit :=
  match s.frameAt? elapsed with
  | some f => f.commands.draw offset
  | none => ([], .ok ())

/-! ### Changing in place -/

def setCanvas (s : Sequence) (canvas : Size) : Except DecodeError Sequence :=
  (s.backing.modify fun bytes => writeCanvas? bytes canvas).map Sequence.mk

def setPlayCount (s : Sequence) (count : UInt16) : Except DecodeError Sequence :=
  (s.backing.modify fun bytes =>
    if playCountOffset + 2 ≤ bytes.length then
      some (bytes.overwrite playCountOffset (Bytes.ofWord16 count))
    else none).map Sequence.mk

def locateFrame? : Nat → Bytes → Option (Bytes × Bytes × Bytes)
  | i, bytes =>
    match frameSize? bytes with
    | none => none
    | some size =>
      match i with
      | 0 => some ([], bytes.take size, bytes.drop size)
      | i + 1 =>
        (locateFrame? i (bytes.drop size)).map fun (before, frame, after) =>
          (bytes.take size ++ before, frame, after)

/-- Makes changes to the frame at a 0-based position. `none` if there is no such frame or the
sequence is read-only. Gives also the frame afterwards. -/
def editFrame? (s : Sequence) (i : Nat) (e : FrameEdit) :
    Option ((List EditResult × Option Frame) × Sequence) :=
  if s.frameCount.toNat ≤ i ∨ s.backing.isMapped then none
  else
    let bytes := s.toBytes
    (locateFrame? i (bytes.drop headerSize)).map fun (before, frame, after) =>
      let (results, frame) := e.apply frame
      ((results, (Frame.read? frame).map (·.1)),
        ⟨s.backing.replace (bytes.take headerSize ++ before ++ frame ++ after)⟩)

end Sequence

end DialGraphics.Draw
