/-!
# Points and sizes

Coordinates are 16-bit words of the display, so sums and differences wrap. A precise point counts
eighths of a pixel (13 whole bits, 3 fraction bits).
-/

namespace DialGraphics

structure Point where
  x : Int16 := 0
  y : Int16 := 0
  deriving DecidableEq, Repr, Inhabited

namespace Point

def add (p q : Point) : Point := ⟨p.x + q.x, p.y + q.y⟩

/-- The way from `q` to `p`, wrapping in 16 bits. -/
def sub (p q : Point) : Point := ⟨p.x - q.x, p.y - q.y⟩

instance : Add Point := ⟨add⟩
instance : Sub Point := ⟨sub⟩

@[simp] theorem add_x (p q : Point) : (p + q).x = p.x + q.x := rfl
@[simp] theorem add_y (p q : Point) : (p + q).y = p.y + q.y := rfl
@[simp] theorem sub_x (p q : Point) : (p - q).x = p.x - q.x := rfl
@[simp] theorem sub_y (p q : Point) : (p - q).y = p.y - q.y := rfl

theorem add_assoc (p q r : Point) : p + q + r = p + (q + r) := by
  show mk (p.x + q.x + r.x) (p.y + q.y + r.y) = mk (p.x + (q.x + r.x)) (p.y + (q.y + r.y))
  rw [Int16.add_assoc, Int16.add_assoc]

end Point

/-- A width and a height in pixels. Either may be negative until a rectangle is standardized. -/
structure Size where
  w : Int16 := 0
  h : Int16 := 0
  deriving DecidableEq, Repr, Inhabited

namespace Size

/-- A size without area: one of its sides is zero or negative. -/
def isEmpty (s : Size) : Bool := s.w ≤ 0 || s.h ≤ 0

/-- A size that no pixel storage can have: one of its sides is negative. -/
def isNegative (s : Size) : Bool := s.w < 0 || s.h < 0

end Size

/-! ### Eighths of a pixel -/

/-- A whole-pixel coordinate in eighths; the high bits are lost. -/
def eighths (c : Int16) : Int16 := c <<< 3

/-- The whole pixel that holds a coordinate in eighths, toward negative infinity. -/
def wholePixels (c : Int16) : Int16 := c >>> 3

theorem eighths_add (c d : Int16) : eighths (c + d) = eighths c + eighths d := by
  apply Int16.toBitVec_inj.1
  simp only [eighths, Int16.toBitVec_shiftLeft, Int16.toBitVec_add, BitVec.shiftLeft_eq',
    BitVec.shiftLeft_add_distrib]

structure PrecisePoint where
  x : Int16 := 0
  y : Int16 := 0
  deriving DecidableEq, Repr, Inhabited

namespace PrecisePoint

def ofPoint (p : Point) : PrecisePoint := ⟨eighths p.x, eighths p.y⟩

def toPoint (p : PrecisePoint) : Point := ⟨wholePixels p.x, wholePixels p.y⟩

def offsetBy (p : PrecisePoint) (offset : Point) : PrecisePoint :=
  ⟨p.x + eighths offset.x, p.y + eighths offset.y⟩

theorem offsetBy_offsetBy (p : PrecisePoint) (a b : Point) :
    (p.offsetBy a).offsetBy b = p.offsetBy (a + b) := by
  simp only [offsetBy, Point.add_x, Point.add_y, eighths_add, Int16.add_assoc]

end PrecisePoint

end DialGraphics
