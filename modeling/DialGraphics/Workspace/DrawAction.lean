import DialGraphics.Draw.Image
import DialGraphics.Draw.Sequence

/-!
# What can be done with draw command images and sequences

The operations on an image or a sequence that is held somewhere, as values.
-/

namespace DialGraphics

open Draw

structure DrawRequest where
  offset : Point := {}
  /-- The rules for the commands; without rules hidden commands are passed over. -/
  rules : Option (List Rule) := none
  /-- Whether rules learn the positions of commands. -/
  positioned : Bool := true

/-- The calls of a drawing, how it went, and what the rules got to see. -/
structure Drawing where
  calls : List Call
  result : Except DecodeError Unit
  seen : Option (List (Option Nat × Command)) := none

def DrawRequest.draw (r : DrawRequest) (l : CommandList) : Drawing :=
  match r.rules with
  | none =>
    let (calls, result) := l.draw r.offset
    ⟨calls, result, none⟩
  | some rules =>
    let (calls, result, seen) := l.drawUnder r.offset rules r.positioned
    ⟨calls, result, some seen⟩

def collect {α : Type} (stop : Nat) (items : List α) : Bool × List (Nat × α) :=
  visit (fun position item seen => (position != stop, seen ++ [(position, item)])) 1 items []

/-! ### Images -/

inductive ImageAction
  | describe
  | setCanvas (canvas : Size)
  | get (index : Nat)
  | visit (stop : Nat)
  | edit (edits : List ListEdit)
  | draw (request : DrawRequest)

inductive ImageAnswer
  | image (i : Image)
  | outcome (result : Except DecodeError Unit)
  | record (r : Option Record)
  | visited (done : Bool) (seen : List (Nat × Record))
  | edited (results : Option (List EditResult × Nat))
  | drawn (d : Drawing)

def ImageAction.run (a : ImageAction) (i : Image) : ImageAnswer × Image :=
  match a with
  | .describe => (.image i, i)
  | .setCanvas canvas =>
    match i.setCanvas canvas with
    | .ok i => (.outcome (.ok ()), i)
    | .error e => (.outcome (.error e), i)
  | .get index => (.record (i.commands.get? index), i)
  | .visit stop =>
    let (done, seen) := collect stop i.commands.toList
    (.visited done seen, i)
  | .edit edits =>
    match i.edit? edits with
    | none => (.edited none, i)
    | some (results, i) => (.edited (some (results, i.commands.count.toNat)), i)
  | .draw request => (.drawn (request.draw i.commands), i)

def ImageAction.runAll : List ImageAction → Image → List ImageAnswer × Image
  | [], i => ([], i)
  | a :: actions, i =>
    let (answer, i) := a.run i
    let (answers, i) := runAll actions i
    (answer :: answers, i)

/-! ### Sequences -/

inductive SequenceAction
  | describe
  | setCanvas (canvas : Size)
  | setPlayCount (count : UInt16)
  | frame (index : Nat)
  | elapsed (times : List Nat)
  | visit (stop : Nat)
  | edit (index : Nat) (change : FrameEdit)
  | drawAt (offset : Point) (time : Nat)
  | drawFrame (index : Nat) (request : DrawRequest)

inductive SequenceAnswer
  | sequence (s : Sequence)
  | outcome (result : Except DecodeError Unit)
  | frame (f : Option Draw.Frame)
  | shown (frames : List (Option Draw.Frame))
  | visited (done : Bool) (seen : List (Nat × Draw.Frame))
  | edited (results : Option (List EditResult × Option Draw.Frame))
  | drawn (d : Option Drawing)

def SequenceAction.run (a : SequenceAction) (s : Sequence) : SequenceAnswer × Sequence :=
  match a with
  | .describe => (.sequence s, s)
  | .setCanvas canvas =>
    match s.setCanvas canvas with
    | .ok s => (.outcome (.ok ()), s)
    | .error e => (.outcome (.error e), s)
  | .setPlayCount count =>
    match s.setPlayCount count with
    | .ok s => (.outcome (.ok ()), s)
    | .error e => (.outcome (.error e), s)
  | .frame index => (.frame (s.frame? index), s)
  | .elapsed times => (.shown (times.map s.frameAt?), s)
  | .visit stop =>
    let (done, seen) := collect stop s.frames
    (.visited done seen, s)
  | .edit index change =>
    match s.editFrame? index change with
    | none => (.edited none, s)
    | some (results, s) => (.edited (some results), s)
  | .drawAt offset time =>
    let (calls, result) := s.drawAt offset time
    (.drawn (some ⟨calls, result, none⟩), s)
  | .drawFrame index request => (.drawn ((s.frame? index).map (request.draw ·.commands)), s)

def SequenceAction.runAll : List SequenceAction → Sequence → List SequenceAnswer × Sequence
  | [], s => ([], s)
  | a :: actions, s =>
    let (answer, s) := a.run s
    let (answers, s) := runAll actions s
    (answer :: answers, s)

end DialGraphics
