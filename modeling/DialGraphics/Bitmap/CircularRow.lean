import DialGraphics.Allocation
import DialGraphics.Bytes.Sweep
import DialGraphics.DecodeError
import DialGraphics.Geometry.Point

/-!
# Rows of a round display

Of a round display only the pixels on the disk are stored, row after row, so each row has its own
place and length. With coordinates doubled, pixel centres are integers: the chord through the centre
of row `y` on a disk of diameter `d` has the length `√(d² - (2y + 1 - d)²)`. It is rounded down, and
then up by one where it would not be centred.
-/

namespace DialGraphics

/-! ### Integer square root -/

/-- Newton's iteration: replaces the candidate as long as the next one is smaller. -/
def squareRootFrom (n candidate : Nat) : Nat :=
  let next := (candidate + n / candidate) / 2
  if next < candidate then squareRootFrom n next else candidate
termination_by candidate

def squareRoot (n : Nat) : Nat := if n < 2 then n else squareRootFrom n n

/-! ### The row table -/

/-- Where a row is stored and which columns it has. -/
structure CircularRow where
  offset : Nat
  minX : Int
  /-- The last stored column, less than `minX` if there is none. -/
  maxX : Int
  deriving DecidableEq, Repr

namespace CircularRow

/-- The number of stored pixels, which is the number of bytes. The distance of two columns is a
16-bit number and the count a 64-bit one, so a row that is wider than any display wraps. -/
def span (r : CircularRow) : Nat :=
  if r.maxX < r.minX then 0 else ((Int.bmod (r.maxX - r.minX) 65536 + 1) % addressSpace).toNat

theorem span_eq {r : CircularRow} (h : r.maxX - r.minX < 32768) :
    r.span = (r.maxX - r.minX + 1).toNat := by
  simp only [span, Int.bmod_def, addressSpace]
  split <;> omega

def chord (d y : Nat) : Nat :=
  let dy := (2 * (y : Int) + 1 - d).natAbs
  if d ≤ dy then 0
  else
    let w := squareRoot (d * d - dy * dy)
    min d (if (d - w) % 2 = 0 then w else w + 1)

def atRow (d y offset : Nat) : CircularRow :=
  let length := chord d y
  let minX := (d - length) / 2
  ⟨offset, minX, (minX : Int) + length - 1⟩

def table (size : Size) : Except DecodeError (List CircularRow) :=
  if size.isEmpty then .error .badParameter
  else
    let d := size.w.toInt.toNat
    .ok (sweep (fun offset y => (offset + chord d y, atRow d y offset)) 0
      (List.range size.h.toInt.toNat)).2

def storedSize (rows : List CircularRow) : Nat :=
  match rows.getLast? with
  | none => 0
  | some last => last.offset + last.span

end CircularRow

end DialGraphics
