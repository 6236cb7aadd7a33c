import DialGraphics.Geometry.Point

/-!
# Platforms

What the device can show, handed to every constructor that depends on it.
-/

namespace DialGraphics

/-- The generation of the bitmap interface an app was built for. A legacy app has 1-bit bitmaps
only. -/
inductive Compat
  | current
  | legacy
  deriving DecidableEq, Repr

inductive DisplayShape
  | rect
  | round
  deriving DecidableEq, Repr

structure Platform where
  displaySize : Size
  shape : DisplayShape
  /-- Whether a circular bitmap must be as large as the display. -/
  circularNeedsDisplaySize : Bool
  /-- Whether read-only resources can be used in place. -/
  mappableFlash : Bool
  compat : Compat
  deriving DecidableEq, Repr

namespace Platform

def rect (w h : Int16) : Platform := ⟨⟨w, h⟩, .rect, false, true, .current⟩

def round (diameter : Int16) : Platform := ⟨⟨diameter, diameter⟩, .round, true, true, .current⟩

/-- The first, monochrome device, running a legacy app from flash that cannot be mapped. -/
def legacy : Platform := ⟨⟨144, 168⟩, .rect, false, false, .legacy⟩

def standard : Platform := rect 144 168

instance : Inhabited Platform := ⟨standard⟩

end Platform

end DialGraphics
