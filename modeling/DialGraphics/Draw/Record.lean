import DialGraphics.DecodeError
import DialGraphics.Draw.Command

/-!
# Stored commands

A record is a header of nine bytes and four bytes per point: kind, flags (bit 0 hides the command),
stroke colour, stroke width, fill colour, the open bit or the radius, the number of points, and the
points. A record says nothing about its size but the number of points, so that reading it is also
finding where the next one starts. Records are changed in place, byte by byte, and never in length.
-/

namespace DialGraphics.Draw

def recordHeaderSize : Nat := 9

def pointSize : Nat := 4

/-! ### Reading -/

/-- A record as it is read. -/
structure Record where
  kind : Kind
  flags : UInt8
  strokeColor : Color
  strokeWidth : UInt8
  fillColor : Color
  openOrRadius : UInt16
  count : UInt16
  points : Bytes
  deriving DecidableEq, Repr

namespace Record

/-- The record at the front. `none` if its kind is unknown, its number of points does not suit the
kind, or its bytes are cut off. -/
def read? : Bytes → Option (Record × Bytes)
  | kind :: flags :: stroke :: width :: fill :: o0 :: o1 :: n0 :: n1 :: rest =>
    match Kind.ofNumber? kind with
    | none => none
    | some kind =>
      let count := Bytes.word16 n0 n1
      if kind.allows count.toNat then
        (Bytes.splitAt? (count.toNat * pointSize) rest).map fun (points, rest) =>
          (⟨kind, flags, ⟨stroke⟩, width, ⟨fill⟩, Bytes.word16 o0 o1, count, points⟩, rest)
      else none
  | _ => none

def size (r : Record) : Nat := recordHeaderSize + r.points.length

def hidden (r : Record) : Bool := r.flags &&& 1 != 0

def isOpen (r : Record) : Bool := r.kind != .circle && r.openOrRadius &&& 1 != 0

def radius (r : Record) : UInt16 := if r.kind = .circle then r.openOrRadius else 0

def pair? (r : Record) (i : Nat) : Option (Int16 × Int16) :=
  match (r.points.drop (i * pointSize)) with
  | x0 :: x1 :: y0 :: y1 :: _ => some ((Bytes.word16 x0 x1).toInt16, (Bytes.word16 y0 y1).toInt16)
  | _ => none

def point? (r : Record) (i : Nat) : Option Point :=
  (r.pair? i).map fun (x, y) =>
    if r.kind = .precisePath then (PrecisePoint.mk x y).toPoint else ⟨x, y⟩

def precisePoint? (r : Record) (i : Nat) : Option PrecisePoint :=
  (r.pair? i).map fun (x, y) =>
    if r.kind = .precisePath then ⟨x, y⟩ else .ofPoint ⟨x, y⟩

/-- The shape that a record describes. A circle without a centre is malformed. -/
def shape (r : Record) : Except DecodeError Shape :=
  let indices := List.range r.count.toNat
  match r.kind with
  | .circle => (orFail .malformed (r.point? 0)).map fun center => .circle center r.radius
  | .path => .ok (.path r.isOpen (indices.filterMap r.point?))
  | .precisePath => .ok (.precisePath r.isOpen (indices.filterMap r.precisePoint?))

def command (r : Record) : Except DecodeError Command :=
  r.shape.map fun shape => ⟨r.hidden, r.strokeColor, r.strokeWidth, r.fillColor, shape⟩

theorem length_of_read? {bytes rest : Bytes} {r : Record} (h : read? bytes = some (r, rest)) :
    bytes.length = r.size + rest.length := by
  unfold read? at h
  split at h
  · split at h
    · cases h
    · simp only at h
      split at h
      · simp only [Option.map_eq_some_iff, Prod.mk.injEq, Prod.exists] at h
        obtain ⟨points, _, hs, rfl, rfl⟩ := h
        obtain ⟨_, e⟩ := Bytes.splitAt?_eq_some_iff.1 hs
        have e := congrArg List.length e
        simp only [List.length_append] at e
        simp only [size, recordHeaderSize, List.length_cons]
        omega
      · cases h
  · cases h

end Record

def recordSize? (bytes : Bytes) : Option Nat := (Record.read? bytes).map fun r => r.1.size

/-! ### Changing in place -/

inductive Setting
  | hidden (value : Bool)
  | strokeColor (color : Color)
  | strokeWidth (width : UInt8)
  | fillColor (color : Color)
  | isOpen (value : Bool)
  | radius (value : UInt16)
  | point (index : Nat) (p : Point)
  | precisePoint (index : Nat) (p : PrecisePoint)
  deriving DecidableEq, Repr

namespace Setting

def flagsOffset : Nat := 1
def strokeColorOffset : Nat := 2
def strokeWidthOffset : Nat := 3
def fillColorOffset : Nat := 4
def openOrRadiusOffset : Nat := 5

def withLowBit (byte : UInt8) (value : Bool) : UInt8 :=
  if value then byte ||| 1 else byte &&& 0xFE

def kindOf? (bytes : Bytes) : Option Kind := bytes.head?.bind Kind.ofNumber?

/-- Writes the coordinates of point `index`; a record without such a point stays as it is. -/
def writePair (bytes : Bytes) (index : Nat) (x y : Int16) : Except DecodeError Unit × Bytes :=
  let start := recordHeaderSize + index * pointSize
  if start + pointSize ≤ bytes.length then (.ok (), bytes.overwrite start (encodePair x y))
  else (.error .badParameter, bytes)

/-- Makes a change to the bytes of one record. Only a path can be open and only a circle has a
radius; a point is converted to what the kind stores. -/
def apply (s : Setting) (bytes : Bytes) : Except DecodeError Unit × Bytes :=
  let kind := kindOf? bytes
  match s with
  | .hidden value => (.ok (), bytes.modify flagsOffset (withLowBit · value))
  | .strokeColor color => (.ok (), bytes.set strokeColorOffset color.argb)
  | .strokeWidth width => (.ok (), bytes.set strokeWidthOffset width)
  | .fillColor color => (.ok (), bytes.set fillColorOffset color.argb)
  | .isOpen value =>
    if kind = some .circle then (.error .badParameter, bytes)
    else (.ok (), bytes.modify openOrRadiusOffset (withLowBit · value))
  | .radius value =>
    if kind = some .circle then (.ok (), bytes.overwrite openOrRadiusOffset (Bytes.ofWord16 value))
    else (.error .badParameter, bytes)
  | .point index p =>
    if kind = some .precisePath then
      writePair bytes index (PrecisePoint.ofPoint p).x (PrecisePoint.ofPoint p).y
    else writePair bytes index p.x p.y
  | .precisePoint index p =>
    if kind = some .precisePath then writePair bytes index p.x p.y
    else writePair bytes index p.toPoint.x p.toPoint.y

def applyAll : List Setting → Bytes → List (Except DecodeError Unit) × Bytes
  | [], bytes => ([], bytes)
  | s :: settings, bytes =>
    let (result, bytes) := s.apply bytes
    let (results, bytes) := applyAll settings bytes
    (result :: results, bytes)

/-- Makes changes to the record at the front of some bytes. Gives how they went, the bytes of the
record afterwards, and the bytes behind it. -/
def applyAtFront? (settings : List Setting) (bytes : Bytes) :
    Option (List (Except DecodeError Unit) × Bytes × Bytes) :=
  (recordSize? bytes).map fun size =>
    let (results, record) := applyAll settings (bytes.take size)
    (results, record, bytes.drop size)

end Setting

end DialGraphics.Draw
