import DialGraphics.Machine.Rect
import DialGraphics.Proofs.Geometry.Clip

/-!
# Rectangles fit the machine

The ends of intervals fit a double word. Clipping stops for one cause only, a container that keeps a
negative length; else nothing is cut off when its result is written in 16-bit words again, and it is
the part that both rectangles have.
-/

namespace DialGraphics.Machine

theorem stop_eq (i : Interval) : stop i = .ok i.stop := by
  have hstart := i.start.toInt_lt
  have hstart' := i.start.le_toInt
  have hlength := i.length.toInt_lt
  have hlength' := i.length.le_toInt
  exact signed_eq (by omega)

/-! ### Unions -/

theorem unionInterval_eq (i j : Interval) : unionInterval i j = .ok (i.union j) := by
  have hstop : ∀ k : Interval, -65536 ≤ k.stop ∧ k.stop ≤ 65534 := by
    intro k
    have hstart := k.start.toInt_lt
    have hstart' := k.start.le_toInt
    have hlength := k.length.toInt_lt
    have hlength' := k.length.le_toInt
    unfold Interval.stop
    omega
  have ha := hstop i.standardize
  have hb := hstop j.standardize
  unfold unionInterval Interval.union
  simp only
  generalize (if i.standardize.start ≤ j.standardize.start then i.standardize.start
    else j.standardize.start) = start
  have hstart := start.toInt_lt
  have hstart' := start.le_toInt
  rw [stop_eq, ok_bind, stop_eq, ok_bind, signed_eq (by omega)]
  rfl

theorem union_eq (r s : Rect) : union r s = .ok (r.union s) := by
  rw [union, unionInterval_eq, ok_bind, unionInterval_eq]
  rfl

theorem le_stop_union (i j : Interval) : -32768 ≤ (i.union j).stop := by
  unfold Interval.union Interval.stop
  simp only
  generalize (if i.standardize.start ≤ j.standardize.start then i.standardize.start
    else j.standardize.start) = start
  have hstart := start.le_toInt
  have hlength : 0 ≤ Interval.clamp
      (max (i.standardize.start.toInt + i.standardize.length.toInt)
        (j.standardize.start.toInt + j.standardize.length.toInt) - start.toInt) 0 32767 :=
    Interval.le_clamp
  have hfits := Interval.toInt_ofInt_of_mem hlength (Interval.clamp_le (by decide))
  omega

/-! ### Clipping -/

theorem clipInterval_eq (i container : Interval) :
    clipInterval i container = (i.clip? container).elim (.error .badArgument) .ok := by
  unfold clipInterval
  simp only [stop_eq, ok_bind]
  by_cases hc : 0 ≤ container.standardize.length.toInt
  · obtain ⟨-, hends, hstop⟩ := i.clip_ends hc
    obtain ⟨⟨hmin, hmax⟩, hpos, hle⟩ := i.clip_fits hc
    have hlo : clamp i.standardize.start.toInt container.standardize.start.toInt
        container.standardize.stop = .ok (i.clipStart container) :=
      clamp_eq (by unfold Interval.stop; omega)
    have hhi : clamp i.standardize.stop (i.clipStart container) container.standardize.stop
        = .ok (i.clipStop container) := clamp_eq (Int.le_trans hends hstop)
    rw [i.clip?_eq_some hc, hlo, ok_bind, hhi, ok_bind, narrow_eq hmin hmax, ok_bind,
      signed_eq (by omega), ok_bind, narrow_eq (by omega) hle]
    rfl
  · -- the ends of the container are in the wrong order
    have hnegative : container.standardize.length < 0 := by
      rw [Int16.lt_iff_toInt_lt, Int16.toInt_zero]
      omega
    have hnone : i.clip? container = none := if_pos hnegative
    have hlo : clamp i.standardize.start.toInt container.standardize.start.toInt
        container.standardize.stop = .error .badArgument :=
      if_neg (by unfold Interval.stop; omega)
    rw [hnone, hlo]
    rfl

theorem clip_eq (r container : Rect) :
    clip r container = (r.clip? container).elim (.error .badArgument) .ok := by
  unfold clip Rect.clip?
  rw [clipInterval_eq, clipInterval_eq]
  cases r.columns.clip? container.columns with
  | none => rfl
  | some columns =>
    cases r.rows.clip? container.rows with
    | none => rfl
    | some rows => rfl

theorem clip_eq_ok {r container part : Rect} (h : r.clip? container = some part) :
    clip r container = .ok part := by
  rw [clip_eq, h]
  rfl

/-- Clipping is the intersection: with a container that has no negative length it comes to an end,
without a number that does not fit, and the result lies in the container and covers what both
rectangles cover. To clip again changes nothing, and to clip in another container leaves what all
three cover. -/
theorem clip_is_intersection (r : Rect) {container : Rect}
    (hc : container.standardize.size.isNegative = false) :
    ∃ part, clip r container = .ok part ∧ r.clip? container = some part
      ∧ part.size.isNegative = false ∧ container.standardize.contains part = true
      ∧ (∀ x y, part.Covers x y ↔ r.standardize.Covers x y ∧ container.standardize.Covers x y)
      ∧ clip part container = .ok part
      ∧ ∀ other : Rect, other.standardize.size.isNegative = false →
        ∃ common, clip part other = .ok common ∧ ∀ x y, common.Covers x y
          ↔ r.standardize.Covers x y ∧ container.standardize.Covers x y
            ∧ other.standardize.Covers x y := by
  obtain ⟨part, hpart, hsize, hinside, hcovers, hagain⟩ := r.exists_clip? hc
  refine ⟨part, clip_eq_ok hpart, hpart, hsize, hinside, hcovers, clip_eq_ok hagain, ?_⟩
  intro other hother
  obtain ⟨common, hcommon, -, -, hboth, -⟩ := part.exists_clip? hother
  refine ⟨common, clip_eq_ok hcommon, fun x y => ?_⟩
  rw [hboth, Rect.standardize_eq_self hsize, hcovers, and_assoc]

/-- A container whose far edge is the first column that has no 16-bit word. -/
theorem clip_is_intersection_farEdge :
    let container : Rect := ⟨⟨-32768, 0⟩, ⟨-1, 5⟩⟩
    container.standardize.size.isNegative = false ∧ container.standardize.maxX = 32768
      ∧ clip ⟨⟨32760, 2⟩, ⟨20, 9⟩⟩ container = .ok ⟨⟨32767, 2⟩, ⟨1, 3⟩⟩
      ∧ clip ⟨⟨32767, 2⟩, ⟨1, 3⟩⟩ container = .ok ⟨⟨32767, 2⟩, ⟨1, 3⟩⟩ := by
  intro container
  have hc : container.standardize.size.isNegative = false := by decide
  obtain ⟨part, hclip, hpart, -, -, -, hagain, -⟩ :=
    clip_is_intersection ⟨⟨32760, 2⟩, ⟨20, 9⟩⟩ hc
  have hvalue : (⟨⟨32760, 2⟩, ⟨20, 9⟩⟩ : Rect).clip? container = some ⟨⟨32767, 2⟩, ⟨1, 3⟩⟩ := by
    decide
  obtain rfl := Option.some.inj (hpart.symm.trans hvalue)
  exact ⟨hc, by decide, hclip, hagain⟩

end DialGraphics.Machine
