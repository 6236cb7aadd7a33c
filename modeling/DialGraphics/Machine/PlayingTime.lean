import DialGraphics.Draw.Sequence
import DialGraphics.Machine.Basic

/-!
# Playing time in machine words

The durations of the frames are summed in double words, and so is what is left of a pass while its
frames are walked. Only the duration of all passes is cut off where a double word ends.
-/

namespace DialGraphics.Machine

open Draw Sequence

/-- The product, cut off at the largest word. -/
def cappedMul (bits a b : Nat) : Nat := min (a * b) (2 ^ bits - 1)

def passDuration (frames : List Frame) : Checked Nat :=
  frames.foldlM (fun total f => add 32 total f.duration.toNat) 0

def totalDuration (s : Sequence) : Checked Nat :=
  if s.playCount = endless then .ok endlessDuration
  else do
    let pass ← passDuration s.frames
    .ok (cappedMul 32 pass s.playCount.toNat)

/-- Whether all passes are over. That is not asked of a sequence that plays for ever. -/
def isOver (s : Sequence) (elapsed : Nat) : Checked Bool :=
  if s.playCount = endless then .ok false
  else do
    let total ← totalDuration s
    .ok (decide (total ≤ elapsed))

def frameWithin? (t : Nat) : List Frame → Checked (Option Frame)
  | [] => .ok none
  | f :: fs =>
    if t < f.duration.toNat then .ok (some f)
    else do
      let rest ← sub t f.duration.toNat
      frameWithin? rest fs

def frameAt? (s : Sequence) (elapsed : Nat) : Checked (Option Frame) := do
  let ended ← isOver s elapsed
  if ended then .ok s.frames.getLast?
  else do
    let pass ← passDuration s.frames
    if pass = 0 then .ok s.frames.getLast?
    else do
      let t ← rem elapsed pass
      let found ← frameWithin? t s.frames
      match found with
      | some f => .ok (some f)
      | none => .ok s.frames.getLast?

end DialGraphics.Machine
