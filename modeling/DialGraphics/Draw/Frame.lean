import DialGraphics.Draw.CommandList

/-!
# Frames of a sequence

A frame is a duration in milliseconds and a command list.
-/

namespace DialGraphics.Draw

structure Frame where
  duration : UInt16
  commands : CommandList
  deriving DecidableEq, Repr

def durationSize : Nat := 2

def frameSize? (bytes : Bytes) : Option Nat :=
  match Bytes.word16? bytes with
  | none => none
  | some (_, rest) => (listSize? rest).map (durationSize + ·)

namespace Frame

def read? (bytes : Bytes) : Option (Frame × Bytes) :=
  match Bytes.word16? bytes with
  | none => none
  | some (duration, rest) =>
    (CommandList.read? rest).map fun (commands, rest) => (⟨duration, commands⟩, rest)

def size (f : Frame) : Nat := durationSize + f.commands.size

def encode (duration : UInt16) (commands : List Command) : Bytes :=
  Bytes.ofWord16 duration ++ CommandList.encode commands

def walk : Nat → Bytes → List Frame
  | 0, _ => []
  | n + 1, bytes =>
    match read? bytes with
    | none => []
    | some (f, rest) => f :: walk n rest

end Frame

/-! ### Changing in place -/

structure FrameEdit where
  duration : Option UInt16
  edits : List ListEdit
  deriving DecidableEq, Repr

def FrameEdit.apply (e : FrameEdit) (frame : Bytes) : List EditResult × Bytes :=
  let frame :=
    match e.duration with
    | none => frame
    | some duration => frame.overwrite 0 (Bytes.ofWord16 duration)
  let (results, list) := ListEdit.applyToList e.edits (frame.drop durationSize)
  (results, frame.take durationSize ++ list)

/-- Makes changes to the frame at the front of some bytes. Gives how they went, the bytes of the
frame afterwards, and the bytes behind it. -/
def FrameEdit.applyAtFront? (e : FrameEdit) (bytes : Bytes) :
    Option (List EditResult × Bytes × Bytes) :=
  (frameSize? bytes).map fun size =>
    let (results, frame) := e.apply (bytes.take size)
    (results, frame, bytes.drop size)

end DialGraphics.Draw
