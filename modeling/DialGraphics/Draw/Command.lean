import DialGraphics.Bytes.Basic
import DialGraphics.Color
import DialGraphics.Geometry.Point

/-!
# Draw commands

A command as a value: its shape, its colours, and whether it is hidden. This is what a processor may
change before a command is drawn; stored commands are not affected. `encode` writes a command as it
is stored.
-/

namespace DialGraphics.Draw

inductive Kind
  | path
  | circle
  /-- A line or polygon through eighths of pixels. -/
  | precisePath
  deriving DecidableEq, Repr

namespace Kind

def ofNumber? : UInt8 → Option Kind
  | 1 => some .path
  | 2 => some .circle
  | 3 => some .precisePath
  | _ => none

def number : Kind → UInt8
  | .path => 1
  | .circle => 2
  | .precisePath => 3

def allows (k : Kind) (n : Nat) : Bool :=
  match k with
  | .circle => n == 1
  | .path | .precisePath => 1 < n

end Kind

inductive Shape
  | circle (center : Point) (radius : UInt16)
  | path (isOpen : Bool) (points : List Point)
  | precisePath (isOpen : Bool) (points : List PrecisePoint)
  deriving DecidableEq, Repr

structure Command where
  hidden : Bool
  strokeColor : Color
  strokeWidth : UInt8
  fillColor : Color
  shape : Shape
  deriving DecidableEq, Repr

/-! ### Writing -/

def encodePair (x y : Int16) : Bytes := Bytes.ofWord16 x.toUInt16 ++ Bytes.ofWord16 y.toUInt16

@[simp] theorem length_encodePair (x y : Int16) : (encodePair x y).length = 4 := rfl

/-- The header of a stored command. The word before the number of points is the radius of a circle,
and says for a path whether it is open. -/
def encodeHeader (kind : Kind) (flags : UInt8) (strokeColor : Color) (strokeWidth : UInt8)
    (fillColor : Color) (openOrRadius : UInt16) (count : Nat) : Bytes :=
  [kind.number, flags, strokeColor.argb, strokeWidth, fillColor.argb]
    ++ Bytes.ofWord16 openOrRadius ++ Bytes.ofWord16 (UInt16.ofNat count)

namespace Shape

def kind : Shape → Kind
  | .circle .. => .circle
  | .path .. => .path
  | .precisePath .. => .precisePath

def pairs : Shape → List (Int16 × Int16)
  | .circle center _ => [(center.x, center.y)]
  | .path _ points => points.map fun p => (p.x, p.y)
  | .precisePath _ points => points.map fun p => (p.x, p.y)

def openOrRadius : Shape → UInt16
  | .circle _ radius => radius
  | .path isOpen _ | .precisePath isOpen _ => if isOpen then 1 else 0

def isStorable (s : Shape) : Bool := s.kind.allows s.pairs.length && s.pairs.length < 65536

end Shape

def Command.encode (c : Command) : Bytes :=
  encodeHeader c.shape.kind (if c.hidden then 1 else 0) c.strokeColor c.strokeWidth c.fillColor
      c.shape.openOrRadius c.shape.pairs.length
    ++ (c.shape.pairs.map fun p => encodePair p.1 p.2).flatten

end DialGraphics.Draw
