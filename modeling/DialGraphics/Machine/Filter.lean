import DialGraphics.Machine.Basic
import DialGraphics.Png.Filter

/-!
# Scanline filters in machine words

Unfiltering in place, byte by byte: each byte is read, its neighbours are looked up in the row
itself and in the row above, and the raw byte is written back. The filter numbers are then squeezed
out by moving every row towards the front.
-/

namespace DialGraphics.Machine

open Png (Filter)

/-! ### One row -/

def nearest (a b c : UInt8) : Checked UInt8 := do
  let sum ← signed 32 (a.toNat + b.toNat)
  let p ← signed 32 (sum - c.toNat)
  let toA ← signed 32 (p - a.toNat)
  let toB ← signed 32 (p - b.toNat)
  let toC ← signed 32 (p - c.toNat)
  let da ← signed 32 toA.natAbs
  let db ← signed 32 toB.natAbs
  let dc ← signed 32 toC.natAbs
  .ok (if da ≤ db ∧ da ≤ dc then a else if db ≤ dc then b else c)

def predict (f : Filter) (a b c : UInt8) : Checked UInt8 :=
  match f with
  | .none => .ok 0
  | .sub => .ok a
  | .up => .ok b
  | .average => do
    let sum ← add 16 a.toNat b.toNat
    .ok (UInt8.ofNat (sum / 2))
  | .paeth => nearest a b c

/-- The byte one unit to the left of position `i`, zero in front of the row. -/
def oneUnitBack (row : Bytes) (unit i : Nat) : Checked UInt8 :=
  if unit ≤ i then do
    let back ← sub i unit
    get row back
  else .ok 0

/-- A byte of the row above. Over the first row there are zeros. -/
def fromAbove (prev : Option Bytes) (read : Bytes → Checked UInt8) : Checked UInt8 :=
  match prev with
  | some above => read above
  | none => .ok 0

def unfilterByte (f : Filter) (prev : Option Bytes) (unit : Nat) (row : Bytes) (i : Nat) :
    Checked Bytes := do
  let a ← oneUnitBack row unit i
  let b ← fromAbove prev (get · i)
  let c ← fromAbove prev (oneUnitBack · unit i)
  let byte ← get row i
  let predicted ← predict f a b c
  set row i (byte + predicted)

def filterByte (f : Filter) (prev : Option Bytes) (unit : Nat) (row : Bytes) (i : Nat) :
    Checked UInt8 := do
  let a ← oneUnitBack row unit i
  let b ← fromAbove prev (get · i)
  let c ← fromAbove prev (oneUnitBack · unit i)
  let byte ← get row i
  let predicted ← predict f a b c
  .ok (byte - predicted)

/-- Filters the first `count` bytes of a row, or all if it is shorter. -/
def filterScanline (f : Filter) (prev : Option Bytes) (row : Bytes) (unit count : Nat) :
    Checked Bytes :=
  (List.range (min count row.length)).mapM (filterByte f prev unit row)

def unfilterRow (f : Filter) (prev : Option Bytes) (unit : Nat) (row : Bytes) : Checked Bytes :=
  if f = .none then .ok row
  else (List.range row.length).foldlM (unfilterByte f prev unit) row

/-! ### Whole lines -/

def unfilterLines (unit : Nat) (prev : Option Bytes) :
    List Bytes → Fallible PngError (List Bytes)
  | [] => return []
  | line :: lines => do
    let (front, row) ← splitAt line 1
    let number ← get front 0
    let f ← settled (orFail .malformed (Filter.ofNumber? number))
    let raw ← unfilterRow f prev unit row
    let front ← set front 0 Filter.none.number
    let others ← unfilterLines unit (some raw) lines
    return (front ++ raw) :: others

def unfilter (data : Bytes) (rowLength unit : Nat) : Fallible PngError Bytes := do
  let line ← add 64 rowLength 1
  let excess ← rem data.length line
  if rowLength = 0 ∨ unit = 0 ∨ excess ≠ 0 then throw .malformed
  else do
    let (lines, rest) ← wholeChunks line data
    let lines ← unfilterLines unit none lines
    return lines.flatten ++ rest

/-- Unfilters line by line. The lines as they are afterwards are given after a failure as well: from
the first filter number on that does not exist they stay as they are. -/
def unfilterEach (unit : Nat) (prev : Option Bytes) :
    List Bytes → Checked (Except PngError Unit × List Bytes)
  | [] => .ok (.ok (), [])
  | line :: lines => do
    let (front, row) ← splitAt line 1
    let number ← get front 0
    match Filter.ofNumber? number with
    | none => .ok (.error .malformed, line :: lines)
    | some f => do
      let raw ← unfilterRow f prev unit row
      let front ← set front 0 Filter.none.number
      let (ended, others) ← unfilterEach unit (some raw) lines
      .ok (ended, (front ++ raw) :: others)

/-- What the data is afterwards, whether it could be unfiltered or not. -/
def unfilterInPlace (data : Bytes) (rowLength unit : Nat) :
    Checked (Except PngError Unit × Bytes) := do
  let line ← add 64 rowLength 1
  let excess ← rem data.length line
  if rowLength = 0 ∨ unit = 0 ∨ excess ≠ 0 then .ok (.error .malformed, data)
  else do
    let (lines, rest) ← wholeChunks line data
    let (ended, lines) ← unfilterEach unit none lines
    .ok (ended, lines.flatten ++ rest)

/-- Moves row `r` to its place among the rows without filter numbers. -/
def stripRow (line rowLength : Nat) (data : Bytes) (r : Nat) : Checked Bytes := do
  let front ← mul 64 r line
  let start ← add 64 front 1
  let next ← add 64 r 1
  let stop ← mul 64 next line
  let target ← mul 64 r rowLength
  copyWithin data start stop target

def stripFilterNumbers (data : Bytes) (rowLength : Nat) : Checked Bytes := do
  let line ← add 64 rowLength 1
  let rows ← div data.length line
  let data ← (List.range rows).foldlM (stripRow line rowLength) data
  let kept ← mul 64 rows rowLength
  .ok (data.take kept)

def clearPadding (rows : Bytes) (rowLength bits : Nat) : Checked Bytes :=
  if bits % 8 = 0 ∨ rowLength = 0 then .ok rows
  else do
    let unused ← sub 8 (bits % 8)
    let mask ← shiftLeft 8 255 unused
    let (whole, rest) ← wholeChunks rowLength rows
    let cleared := whole.map fun row => row.modify (row.length - 1) (· &&& UInt8.ofNat mask)
    .ok (cleared.flatten ++ rest)

end DialGraphics.Machine
