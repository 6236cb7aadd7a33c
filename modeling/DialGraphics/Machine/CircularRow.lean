import DialGraphics.Bitmap.CircularRow
import DialGraphics.Machine.Basic

/-!
# Rows of a round display in machine words

The row table computed step by step: coordinates in signed double words, roots and places of rows in
unsigned ones, and the length of a row as the difference of two 16-bit columns.
-/

namespace DialGraphics.Machine

/-- Newton's iteration with the next candidate already known. -/
def squareRootFrom (n candidate next : Nat) : Checked Nat :=
  if next < candidate then do
    let quotient ← div n next
    let sum ← add 32 next quotient
    squareRootFrom n next (sum / 2)
  else .ok candidate
termination_by candidate

def squareRoot (n : Nat) : Checked Nat :=
  if n < 2 then .ok n
  else do
    let sum ← add 32 n 1
    squareRootFrom n n (sum / 2)

/-- A length with the remainder of the diameter even, and no larger than the diameter. -/
def centred (d length : Int) : Checked Int := do
  let margin ← signed 32 (d - length)
  let even ← if margin % 2 = 0 then .ok length else signed 32 (length + 1)
  .ok (min even d)

def chord (d y : Int) : Checked Int := do
  let doubled ← signed 32 (2 * y)
  let next ← signed 32 (doubled + 1)
  let dy ← signed 32 (next - d)
  let distance ← signed 32 dy.natAbs
  if d ≤ distance then .ok 0
  else
    let whole ← signed 32 (d * d)
    let cut ← signed 32 (dy * dy)
    let rest ← signed 32 (whole - cut)
    let root ← squareRoot (toUnsigned 32 rest)
    centred d (toSigned 32 root)

def atRow (d length : Int) (offset : Nat) : Checked CircularRow := do
  let margin ← signed 32 (d - length)
  let minX := margin / 2
  let stop ← signed 32 (minX + length)
  let maxX ← signed 32 (stop - 1)
  .ok ⟨offset, toSigned 16 minX, toSigned 16 maxX⟩

def tableFrom (d : Int) (offset : Nat) : List Nat → Checked (List CircularRow)
  | [] => .ok []
  | y :: ys => do
    let length ← chord d y
    let row ← atRow d length offset
    let next ← add 32 offset (toUnsigned 32 length)
    let rows ← tableFrom d next ys
    .ok (row :: rows)

def table (size : Size) : Fallible DecodeError (List CircularRow) :=
  if size.isEmpty then throw .badParameter
  else tableFrom size.w.toInt 0 (List.range size.h.toInt.toNat)

def span (r : CircularRow) : Checked Nat :=
  if r.maxX < r.minX then .ok 0
  else do
    let distance ← signed 16 (r.maxX - r.minX)
    add 64 (toUnsigned 64 distance) 1

def storedSize (rows : List CircularRow) : Checked Nat :=
  match rows.getLast? with
  | none => .ok 0
  | some last => do
    let length ← span last
    add 64 last.offset length

end DialGraphics.Machine
