import DialGraphics.Geometry.Rect
import DialGraphics.Machine.Basic

/-!
# Rectangles in machine words

The ends of intervals are signed double words, whereas what is stored of a clipped interval are
16-bit words again. A number is brought between two limits only if these are in order, and a double
word becomes a 16-bit one only if it fits.
-/

namespace DialGraphics.Machine

def stop (i : Interval) : Checked Int := signed 32 (i.start.toInt + i.length.toInt)

/-! ### Unions -/

def unionInterval (i j : Interval) : Checked Interval := do
  let a := i.standardize
  let b := j.standardize
  let start := if a.start ≤ b.start then a.start else b.start
  let stopA ← stop a
  let stopB ← stop b
  let length ← signed 32 (max stopA stopB - start.toInt)
  .ok ⟨start, Int16.ofInt (Interval.clamp length 0 32767)⟩

def union (r s : Rect) : Checked Rect := do
  let columns ← unionInterval r.columns s.columns
  let rows ← unionInterval r.rows s.rows
  .ok (.ofIntervals columns rows)

/-! ### Clipping -/

def clamp (v lo hi : Int) : Checked Int :=
  if lo ≤ hi then .ok (Interval.clamp v lo hi) else .error .badArgument

/-- The 16-bit word of a number. One that does not fit would lose bits. -/
def narrow (v : Int) : Checked Int16 := do
  let fitting ← signed 16 v
  .ok (Int16.ofInt fitting)

def clipInterval (i container : Interval) : Checked Interval := do
  let r := i.standardize
  let c := container.standardize
  let stopC ← stop c
  let lo ← clamp r.start.toInt c.start.toInt stopC
  let stopR ← stop r
  let hi ← clamp stopR lo stopC
  let start ← narrow lo
  let distance ← signed 32 (hi - lo)
  let length ← narrow distance
  .ok ⟨start, length⟩

def clip (r container : Rect) : Checked Rect := do
  let columns ← clipInterval r.columns container.columns
  let rows ← clipInterval r.rows container.rows
  .ok (.ofIntervals columns rows)

theorem clamp_eq {v lo hi : Int} (h : lo ≤ hi) : clamp v lo hi = .ok (Interval.clamp v lo hi) :=
  if_pos h

theorem narrow_eq {v : Int} (hmin : -32768 ≤ v) (hmax : v ≤ 32767) :
    narrow v = .ok (Int16.ofInt v) := by
  rw [narrow, signed_eq (by omega)]
  rfl

end DialGraphics.Machine
