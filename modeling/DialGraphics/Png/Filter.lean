import DialGraphics.Allocation
import DialGraphics.Bytes.Sweep

/-!
# Scanline filters

A filter stores each byte of a row as the difference to a value predicted from its neighbours: `a`
one unit to the left, `b` above, `c` above and one unit to the left, all zero outside the image.
`filterRow` and `unfilterRow` are the same sweep, once with the difference stored and once with it
added back, so that each undoes the other. `unfilter` works on whole lines, a filter number and a
row each.
-/

namespace DialGraphics.Png

/-- The five filters. -/
inductive Filter
  | none
  | sub
  | up
  | average
  | paeth
  deriving DecidableEq, Repr

namespace Filter

def ofNumber? : UInt8 → Option Filter
  | 0 => some .none
  | 1 => some .sub
  | 2 => some .up
  | 3 => some .average
  | 4 => some .paeth
  | _ => Option.none

def number : Filter → UInt8
  | .none => 0
  | .sub => 1
  | .up => 2
  | .average => 3
  | .paeth => 4

/-- The neighbour nearest to `a + b - c`; `a` before `b` before `c` among equals. -/
def nearest (a b c : UInt8) : UInt8 :=
  let p : Int := (a.toNat : Int) + b.toNat - c.toNat
  let da := (p - a.toNat).natAbs
  let db := (p - b.toNat).natAbs
  let dc := (p - c.toNat).natAbs
  if da ≤ db ∧ da ≤ dc then a else if db ≤ dc then b else c

/-- The value a filter predicts from the neighbours. -/
def predict (f : Filter) (a b c : UInt8) : UInt8 :=
  match f with
  | .none => 0
  | .sub => a
  | .up => b
  | .average => UInt8.ofNat ((a.toNat + b.toNat) / 2)
  | .paeth => nearest a b c

end Filter

/-! ### One row -/

/-- The last unit of raw bytes to the left, and above it, oldest first. -/
structure Window where
  left : Bytes
  upLeft : Bytes

namespace Window

/-- The window at the start of a row of `length` bytes. A unit longer than the row is never filled,
so it is cut off there. -/
def start (unit length : Nat) : Window :=
  ⟨List.replicate (min unit length) 0, List.replicate (min unit length) 0⟩

/-- The value predicted for a byte whose upper neighbour is `b`. With a unit of zero bytes a byte is
its own left neighbour: `self` and `b` then stand for `a` and `c`. -/
def predict (w : Window) (f : Filter) (self b : UInt8) : UInt8 :=
  f.predict (w.left.headD self) b (w.upLeft.headD b)

def push (w : Window) (raw b : UInt8) : Window :=
  ⟨w.left.tail ++ (if w.left.isEmpty then [] else [raw]),
    w.upLeft.tail ++ (if w.upLeft.isEmpty then [] else [b])⟩

end Window

/-- The filtered form of the raw bytes `row` under the raw bytes `above`. It ends where the shorter
of the two ends. -/
def filterRow (f : Filter) (unit : Nat) (above row : Bytes) : Bytes :=
  (sweep (fun (w : Window) (x : UInt8 × UInt8) =>
      (w.push x.1 x.2, x.1 - w.predict f x.1 x.2))
    (Window.start unit row.length) (row.zip above)).2

def unfilterRow (f : Filter) (unit : Nat) (above row : Bytes) : Bytes :=
  (sweep (fun (w : Window) (x : UInt8 × UInt8) =>
      let raw := x.1 + w.predict f 0 x.2
      (w.push raw x.2, raw))
    (Window.start unit row.length) (row.zip above)).2

def noRow (length : Nat) : Bytes := List.replicate length 0

/-- Filters the first `count` bytes of `row`, or all if it is shorter. `none` if a row above is
given and it does not reach as far. -/
def filterScanline? (f : Filter) (above : Option Bytes) (row : Bytes) (unit count : Nat) :
    Option Bytes :=
  let part := row.take count
  match above with
  | Option.none => some (filterRow f unit (noRow part.length) part)
  | some bytes =>
    if bytes.length < part.length then Option.none else some (filterRow f unit bytes part)

/-! ### Whole lines -/

inductive UnfilterError
  | malformed
  /-- A line, one byte longer than its row, would be longer than any address can reach. -/
  | lineTooLong
  deriving DecidableEq, Repr

/-- Reverses the filter of one line under the raw row `above` and marks the line as unfiltered. Once
a line has a filter number that does not exist, it and all later lines stay as they are. -/
def unfilterLine (unit : Nat) (above : Option Bytes) (line : Bytes) : Option Bytes × Bytes :=
  match above, line with
  | some above, number :: row =>
    match Filter.ofNumber? number with
    | some f =>
      let raw := unfilterRow f unit above row
      (some raw, Filter.none.number :: raw)
    | Option.none => (Option.none, line)
  | _, _ => (Option.none, line)

/-- Reverses the filters of lines of one filter number and `rowLength` bytes each. Gives the bytes
as they are afterwards, also after a failure: lines before a bad one are done by then. Without any
line no row of zeros is needed above the first, however long a row would be. -/
def unfilter (data : Bytes) (rowLength unit : Nat) : Except UnfilterError Unit × Bytes :=
  if rowLength = 0 ∨ unit = 0 then (.error .malformed, data)
  else if addressSpace ≤ rowLength + 1 then (.error .lineTooLong, data)
  else if data.length % (rowLength + 1) ≠ 0 then (.error .malformed, data)
  else
    let above := noRow (min rowLength data.length)
    let swept := sweep (unfilterLine unit) (some above) (Bytes.wholeGroups (rowLength + 1) data)
    (if swept.1.isSome then .ok () else .error .malformed, swept.2.flatten)

/-- The filtered lines of some rows of `rowLength` bytes, each with a filter of its own: the number
of the filter, then the row filtered under the one before it. -/
def filterLines (unit rowLength : Nat) (rows : List (Filter × Bytes)) : Bytes :=
  (sweep (fun (above : Bytes) (x : Filter × Bytes) =>
      (x.2, x.1.number :: filterRow x.1 unit above x.2))
    (noRow rowLength) rows).2.flatten

def stripFilterNumbers (data : Bytes) (rowLength : Nat) : Bytes :=
  ((Bytes.wholeGroups (rowLength + 1) data).map List.tail).flatten

def clearRowPadding (bits : Nat) (row : Bytes) : Bytes :=
  if bits % 8 = 0 then row
  else row.modify (row.length - 1) (· &&& (255 <<< UInt8.ofNat (8 - bits % 8)))

def clearPadding (rows : Bytes) (rowLength bits : Nat) : Bytes :=
  if bits % 8 = 0 ∨ rowLength = 0 then rows
  else ((Bytes.wholeGroups rowLength rows).map (clearRowPadding bits)).flatten

end DialGraphics.Png
