import DialGraphics.Draw.Canvas
import DialGraphics.Machine.Basic

/-!
# Drawing in machine words

The records of a list are counted from one in 16 bits. To be drawn, a record is copied out, for
which the points of a path need a buffer, and that may not be had. There is one way to draw, with a
processor or without: without one, a hidden record is passed over before it is copied.
-/

namespace DialGraphics.Machine

open Draw

/-- Copies a stored command out. `room` says whether a buffer of some bytes can be had. -/
def copyOut (room : Nat → Bool) (r : Record) : Except DecodeError Command :=
  if r.kind ≠ .circle ∧ room (r.count.toNat * pointSize) = false then .error .outOfMemory
  else r.command

variable {σ : Type}

def drawRecord (room : Nat → Bool) (processor : Option (Nat → Command → σ → Command × σ))
    (offset : Point) (index : Nat) (r : Record) (s : σ) : Except DecodeError (List Call × σ) :=
  if processor.isNone ∧ r.hidden then .ok ([], s)
  else do
    let c ← copyOut room r
    match processor with
    | none => .ok (c.draw offset, s)
    | some process =>
      let (c, s) := process index c s
      .ok (c.draw offset, s)

/-- Draws records of which `i` are in front already. -/
def drawRecords (room : Nat → Bool) (processor : Option (Nat → Command → σ → Command × σ))
    (offset : Point) (i : Nat) :
    List Record → σ → Checked (List Call × Except DecodeError Unit × σ)
  | [], s => .ok ([], .ok (), s)
  | r :: rs, s => do
    let index ← add 16 (i % 2 ^ 16) 1
    match drawRecord room processor offset index r s with
    | .error e => .ok ([], .error e, s)
    | .ok (calls, s) =>
      let (rest, result, s) ← drawRecords room processor offset (i + 1) rs s
      .ok (calls ++ rest, result, s)

def draw (room : Nat → Bool) (l : CommandList) (offset : Point) :
    Checked (List Call × Except DecodeError Unit) := do
  let (calls, result, _) ← drawRecords room none offset 0 l.toList ()
  .ok (calls, result)

def drawWith (room : Nat → Bool) (l : CommandList) (offset : Point)
    (process : Nat → Command → σ → Command × σ) (s : σ) :
    Checked (List Call × Except DecodeError Unit × σ) :=
  drawRecords room (some process) offset 0 l.toList s

end DialGraphics.Machine
