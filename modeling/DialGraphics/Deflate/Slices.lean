import DialGraphics.Deflate.Zlib

/-!
# Streams in slices

A compressed stream may lie in several places. Its slices are then handed one after the other to an
inflater, which keeps a state from each slice to the next and reports how far it has come. The
inflater is a parameter here; `inflate?` is what is made of its reports.
-/

namespace DialGraphics.Deflate

inductive Status
  | done
  | needsMoreInput
  | hasMoreOutput
  /-- Any defect of the stream, or an end of the input where none may be. -/
  | failed
  deriving DecidableEq, Repr

/-- What an inflater gives for a slice. -/
structure Report (σ : Type) where
  state : σ
  status : Status
  /-- How many bytes of the slice are read. -/
  read : Nat
  written : Bytes

structure Inflater where
  State : Type
  start : State
  /-- Takes in a slice when `out` is already written to an output of `size` bytes. `more` says that
  other slices follow. -/
  feed (state : State) (size : Nat) (out slice : Bytes) (more : Bool) : Report State

namespace Inflater

variable (i : Inflater)

/-- Goes on from a state with `out` written. A full output at the end of a slice is reported as more
output even if only the next slice is missing, so it ends the stream only if bytes of the slice are
left or no other slice follows. -/
def run? (size : Nat) (state : i.State) (out : Bytes) : List Bytes → Option Bytes
  | [] => none
  | slice :: slices =>
    let report := i.feed state size out slice (!slices.isEmpty)
    let out := out ++ report.written
    match report.status with
    | .done => if out.length = size then some out else none
    | .needsMoreInput => run? size report.state out slices
    | .hasMoreOutput =>
      if !slices.isEmpty ∧ out.length = size ∧ report.read = slice.length then
        run? size report.state out slices
      else none
    | .failed => none

/-- The contents of a stream in slices, which have to be exactly `size` bytes. -/
def inflate? (size : Nat) (slices : List Bytes) : Option Bytes := i.run? size i.start [] slices

end Inflater

end DialGraphics.Deflate
