import DialGraphics.Geometry.Interval
import DialGraphics.Geometry.Point

/-!
# Rectangles

An origin and a size. Every operation works on the two axes one by one.
-/

namespace DialGraphics

structure Rect where
  origin : Point := {}
  size : Size := {}
  deriving DecidableEq, Repr, Inhabited

namespace Rect

def columns (r : Rect) : Interval := ⟨r.origin.x, r.size.w⟩

def rows (r : Rect) : Interval := ⟨r.origin.y, r.size.h⟩

def ofIntervals (columns rows : Interval) : Rect :=
  ⟨⟨columns.start, rows.start⟩, ⟨columns.length, rows.length⟩⟩

def ofSize (size : Size) : Rect := ⟨{}, size⟩

def maxX (r : Rect) : Int := r.columns.stop

def maxY (r : Rect) : Int := r.rows.stop

def Covers (r : Rect) (x y : Int) : Prop := r.columns.Covers x ∧ r.rows.Covers y

instance (r : Rect) (x y : Int) : Decidable (r.Covers x y) :=
  inferInstanceAs (Decidable (_ ∧ _))

/-- The same area with a size that is not negative, as far as 16 bits allow. -/
def standardize (r : Rect) : Rect := ofIntervals r.columns.standardize r.rows.standardize

/-- The overlap of a rectangle with a container; `none` if an axis of the standardized container
still has a negative length. -/
def clip? (r container : Rect) : Option Rect :=
  match r.columns.clip? container.columns, r.rows.clip? container.rows with
  | some columns, some rows => some (ofIntervals columns rows)
  | _, _ => none

def union (r s : Rect) : Rect :=
  ofIntervals (r.columns.union s.columns) (r.rows.union s.rows)

/-- Whether the standardized `inner` lies inside `r`, which is taken as it is. -/
def contains (r inner : Rect) : Bool :=
  r.columns.contains inner.columns && r.rows.contains inner.rows

@[simp] theorem columns_ofIntervals (c r : Interval) : (ofIntervals c r).columns = c := rfl
@[simp] theorem rows_ofIntervals (c r : Interval) : (ofIntervals c r).rows = r := rfl

end Rect

end DialGraphics
