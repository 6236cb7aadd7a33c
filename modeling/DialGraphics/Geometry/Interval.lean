/-!
# Intervals on one axis

A rectangle is two of these. The start and the signed length are 16-bit words; the end is computed
without wrapping, so it may lie outside the range of a word. Clipping is undefined when the
container keeps a negative length after it is standardized, which happens for the length `-32768`
only.
-/

namespace DialGraphics

/-- A start and a signed length on one axis. -/
structure Interval where
  start : Int16
  length : Int16
  deriving DecidableEq, Repr

namespace Interval

def stop (i : Interval) : Int := i.start.toInt + i.length.toInt

/-- Whether a coordinate lies between the start and the stop. A negative length covers nothing. -/
def Covers (i : Interval) (v : Int) : Prop := i.start.toInt ≤ v ∧ v < i.stop

instance (i : Interval) (v : Int) : Decidable (i.Covers v) :=
  inferInstanceAs (Decidable (_ ∧ _))

/-- The same stretch with its length turned positive; `-32768` stays as it is. -/
def standardize (i : Interval) : Interval :=
  if i.length < 0 then ⟨i.start + i.length, -i.length⟩ else i

def clamp (v lo hi : Int) : Int := max lo (min v hi)

/-- The part of `i` inside `container`. Where they do not meet it is empty, at the nearest end of
the container. `none` if the standardized container still has a negative length. -/
def clip? (i container : Interval) : Option Interval :=
  let r := i.standardize
  let c := container.standardize
  if c.length < 0 then none
  else
    let lo := clamp r.start.toInt c.start.toInt c.stop
    let hi := clamp r.stop lo c.stop
    some ⟨Int16.ofInt lo, Int16.ofInt (hi - lo)⟩

/-- The smallest interval over both, its length cut off at `32767`. -/
def union (i j : Interval) : Interval :=
  let a := i.standardize
  let b := j.standardize
  let start := if a.start ≤ b.start then a.start else b.start
  ⟨start, Int16.ofInt (clamp (max a.stop b.stop - start.toInt) 0 32767)⟩

/-- Whether the standardized `inner` lies between the ends of `i`, which is taken as it is. -/
def contains (i inner : Interval) : Bool :=
  let s := inner.standardize
  i.start ≤ s.start && s.stop ≤ i.stop

end Interval

end DialGraphics
