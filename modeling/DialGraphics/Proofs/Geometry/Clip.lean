import DialGraphics.Geometry.Rect

/-!
# Clipping

Inside a rectangle of nonnegative coordinates clipping is always defined, and what is left over is
again such a rectangle, inside the first one. The clipped rectangle itself may be any.
-/

namespace DialGraphics

namespace Interval

/-- All coordinates are zero or more, and the end is one that a coordinate can have. -/
structure IsProper (i : Interval) : Prop where
  start_nonneg : 0 ≤ i.start.toInt
  length_nonneg : 0 ≤ i.length.toInt
  stop_le : i.stop ≤ 32767

theorem IsProper.stop_nonneg {i : Interval} (hi : i.IsProper) : 0 ≤ i.stop :=
  Int.add_nonneg hi.start_nonneg hi.length_nonneg

theorem standardize_eq_self {i : Interval} (h : 0 ≤ i.length.toInt) : i.standardize = i := by
  have hlength : ¬ i.length < 0 := by
    rw [Int16.lt_iff_toInt_lt, Int16.toInt_zero]
    omega
  rw [standardize, if_neg hlength]

theorem contains_iff {i inner : Interval} (h : 0 ≤ inner.length.toInt) :
    i.contains inner = true ↔ i.start.toInt ≤ inner.start.toInt ∧ inner.stop ≤ i.stop := by
  rw [contains, standardize_eq_self h]
  simp only [Bool.and_eq_true, decide_eq_true_eq, Int16.le_iff_toInt_le]

theorem toInt_ofInt_of_mem {v : Int} (hmin : 0 ≤ v) (hmax : v ≤ 32767) :
    (Int16.ofInt v).toInt = v := by
  rw [Int16.toInt_ofInt_of_le]
  · omega
  · omega

theorem le_clamp {v lo hi : Int} : lo ≤ clamp v lo hi := by
  unfold clamp
  omega

theorem clamp_le {v lo hi : Int} (h : lo ≤ hi) : clamp v lo hi ≤ hi := by
  unfold clamp
  omega

/-! ### Where the clipped interval lies -/

def clipStart (i container : Interval) : Int :=
  clamp i.standardize.start.toInt container.standardize.start.toInt container.standardize.stop

def clipStop (i container : Interval) : Int :=
  clamp i.standardize.stop (i.clipStart container) container.standardize.stop

theorem clip_ends (i : Interval) {container : Interval}
    (hc : 0 ≤ container.standardize.length.toInt) :
    container.standardize.start.toInt ≤ i.clipStart container
      ∧ i.clipStart container ≤ i.clipStop container
      ∧ i.clipStop container ≤ container.standardize.stop := by
  have hends : container.standardize.start.toInt ≤ container.standardize.stop := by
    unfold stop
    omega
  exact ⟨le_clamp, le_clamp, clamp_le (clamp_le hends)⟩

/-- The end of a container may be past the last coordinate, but nothing begins there. -/
theorem clip_fits (i : Interval) {container : Interval}
    (hc : 0 ≤ container.standardize.length.toInt) :
    (-32768 ≤ i.clipStart container ∧ i.clipStart container ≤ 32767)
      ∧ 0 ≤ i.clipStop container - i.clipStart container
      ∧ i.clipStop container - i.clipStart container ≤ 32767 := by
  obtain ⟨hstart, hends, hstop⟩ := i.clip_ends hc
  have hmin := container.standardize.start.le_toInt
  have hmax := container.standardize.start.toInt_lt
  have hmax' := i.standardize.start.toInt_lt
  have hlength := container.standardize.length.toInt_lt
  have hstopEq : container.standardize.stop
      = container.standardize.start.toInt + container.standardize.length.toInt := rfl
  have hle : i.clipStart container ≤ 32767 := by
    unfold clipStart clamp
    omega
  omega

theorem clip?_eq_some (i : Interval) {container : Interval}
    (hc : 0 ≤ container.standardize.length.toInt) :
    i.clip? container = some ⟨Int16.ofInt (i.clipStart container),
      Int16.ofInt (i.clipStop container - i.clipStart container)⟩ := by
  have hdefined : ¬ container.standardize.length < 0 := by
    rw [Int16.lt_iff_toInt_lt, Int16.toInt_zero]
    omega
  exact if_neg hdefined

theorem exists_clip? (i : Interval) {container : Interval}
    (hc : 0 ≤ container.standardize.length.toInt) :
    ∃ part, i.clip? container = some part ∧ part.start.toInt = i.clipStart container
      ∧ part.stop = i.clipStop container ∧ 0 ≤ part.length.toInt := by
  obtain ⟨⟨hmin, hmax⟩, hpos, hle⟩ := i.clip_fits hc
  have hstart : (Int16.ofInt (i.clipStart container)).toInt = i.clipStart container :=
    Int16.toInt_ofInt_of_le hmin (by omega)
  have hlength := toInt_ofInt_of_mem hpos hle
  refine ⟨_, i.clip?_eq_some hc, hstart, ?_, ?_⟩
  · rw [stop, hstart, hlength]
    omega
  · rw [hlength]
    exact hpos

/-- A coordinate is left exactly if both intervals cover it. -/
theorem mem_clip_iff (i : Interval) {container : Interval}
    (hc : 0 ≤ container.standardize.length.toInt) (v : Int) :
    i.clipStart container ≤ v ∧ v < i.clipStop container
      ↔ i.standardize.Covers v ∧ container.standardize.Covers v := by
  have hends : container.standardize.start.toInt ≤ container.standardize.stop := by
    unfold stop
    omega
  unfold clipStop clipStart clamp Covers
  omega

/-- What lies inside the container already is left as it is. -/
theorem clip?_of_inside {part container : Interval}
    (hc : 0 ≤ container.standardize.length.toInt) (hpart : 0 ≤ part.length.toInt)
    (hstart : container.standardize.start.toInt ≤ part.start.toInt)
    (hstop : part.stop ≤ container.standardize.stop) : part.clip? container = some part := by
  have hends : part.stop = part.start.toInt + part.length.toInt := rfl
  have hlo : part.clipStart container = part.start.toInt := by
    rw [clipStart, standardize_eq_self hpart]
    unfold clamp
    omega
  have hhi : part.clipStop container = part.stop := by
    rw [clipStop, hlo, standardize_eq_self hpart]
    unfold clamp
    omega
  have hlength : part.stop - part.start.toInt = part.length.toInt := by omega
  rw [part.clip?_eq_some hc, hlo, hhi, hlength, Int16.ofInt_toInt, Int16.ofInt_toInt]

/-- Clipping inside a proper interval is defined, and gives a proper part of it. -/
theorem clip?_of_isProper (i : Interval) {container : Interval} (hc : container.IsProper) :
    ∃ part, i.clip? container = some part ∧ part.IsProper ∧ container.contains part = true := by
  have hself := standardize_eq_self hc.length_nonneg
  have hlength : 0 ≤ container.standardize.length.toInt := by
    rw [hself]
    exact hc.length_nonneg
  obtain ⟨part, hpart, hstart, hstop, hpos⟩ := i.exists_clip? hlength
  obtain ⟨hlo, -, hhi⟩ := i.clip_ends hlength
  rw [hself, ← hstart] at hlo
  rw [hself, ← hstop] at hhi
  refine ⟨part, hpart, ⟨?_, hpos, ?_⟩, (contains_iff hpos).2 ⟨hlo, hhi⟩⟩
  · exact Int.le_trans hc.start_nonneg hlo
  · exact Int.le_trans hhi hc.stop_le

theorem stop_union_zero {i : Interval} (hi : i.IsProper) : (i.union ⟨0, 0⟩).stop = i.stop := by
  obtain ⟨hstart, hlength, hstop⟩ := hi
  have hzero : (⟨0, 0⟩ : Interval).standardize = ⟨0, 0⟩ := rfl
  have hends : i.stop = i.start.toInt + i.length.toInt := rfl
  have hmax : max i.stop (⟨0, 0⟩ : Interval).stop = i.stop := by
    show max i.stop 0 = i.stop
    omega
  rw [union, standardize_eq_self hlength, hzero]
  simp only [hmax]
  have hpart : ∀ v : Int16, 0 ≤ v.toInt → v.toInt ≤ i.stop
      → stop ⟨v, Int16.ofInt (clamp (i.stop - v.toInt) 0 32767)⟩ = i.stop := by
    intro v hmin hle
    have hclamp : clamp (i.stop - v.toInt) 0 32767 = i.stop - v.toInt := by
      unfold clamp
      omega
    rw [stop, hclamp, toInt_ofInt_of_mem (by omega) (by omega)]
    show v.toInt + (i.stop - v.toInt) = i.stop
    omega
  split
  · exact hpart i.start hstart (by omega)
  · exact hpart 0 (by decide) (by rw [Int16.toInt_zero]; omega)

end Interval

namespace Size

theorem isNegative_eq_false_iff {s : Size} :
    s.isNegative = false ↔ 0 ≤ s.w.toInt ∧ 0 ≤ s.h.toInt := by
  simp only [isNegative, Bool.or_eq_false_iff, decide_eq_false_iff_not, Int16.lt_iff_toInt_lt,
    Int16.toInt_zero, Int.not_lt]

theorem isEmpty_eq_false_iff {s : Size} :
    s.isEmpty = false ↔ 0 < s.w.toInt ∧ 0 < s.h.toInt := by
  simp only [isEmpty, Bool.or_eq_false_iff, decide_eq_false_iff_not, Int16.le_iff_toInt_le,
    Int16.toInt_zero, Int.not_le]

theorem isNegative_of_isEmpty {s : Size} (h : s.isEmpty = false) : s.isNegative = false := by
  obtain ⟨hw, hh⟩ := isEmpty_eq_false_iff.1 h
  exact isNegative_eq_false_iff.2 ⟨Int.le_of_lt hw, Int.le_of_lt hh⟩

end Size

namespace Rect

structure IsProper (r : Rect) : Prop where
  columns : r.columns.IsProper
  rows : r.rows.IsProper

theorem clip?_of_isProper (r : Rect) {container : Rect} (hc : container.IsProper) :
    ∃ part, r.clip? container = some part ∧ part.IsProper ∧ container.contains part = true := by
  obtain ⟨columns, hcolumns, hcproper, hcinside⟩ := r.columns.clip?_of_isProper hc.columns
  obtain ⟨rows, hrows, hrproper, hrinside⟩ := r.rows.clip?_of_isProper hc.rows
  refine ⟨ofIntervals columns rows, ?_, ⟨hcproper, hrproper⟩, ?_⟩
  · rw [clip?, hcolumns, hrows]
  · rw [contains, columns_ofIntervals, rows_ofIntervals, hcinside, hrinside]
    rfl

theorem standardize_eq_self {r : Rect} (h : r.size.isNegative = false) : r.standardize = r := by
  obtain ⟨hw, hh⟩ := Size.isNegative_eq_false_iff.1 h
  rw [standardize, Interval.standardize_eq_self hw, Interval.standardize_eq_self hh]
  rfl

/-- The two axes of a clipped rectangle, each from its own ends. -/
theorem exists_clip? (r : Rect) {container : Rect}
    (hc : container.standardize.size.isNegative = false) :
    ∃ part, r.clip? container = some part ∧ part.size.isNegative = false
      ∧ container.standardize.contains part = true
      ∧ (∀ x y, part.Covers x y ↔ r.standardize.Covers x y ∧ container.standardize.Covers x y)
      ∧ part.clip? container = some part := by
  obtain ⟨hw, hh⟩ := Size.isNegative_eq_false_iff.1 hc
  obtain ⟨columns, hcolumns, hleft, hright, hwidth⟩ := r.columns.exists_clip? hw
  obtain ⟨rows, hrows, htop, hbottom, hheight⟩ := r.rows.exists_clip? hh
  obtain ⟨hleft', -, hright'⟩ := r.columns.clip_ends hw
  obtain ⟨htop', -, hbottom'⟩ := r.rows.clip_ends hh
  rw [← hleft] at hleft'
  rw [← hright] at hright'
  rw [← htop] at htop'
  rw [← hbottom] at hbottom'
  refine ⟨ofIntervals columns rows, ?_, ?_, ?_, fun x y => ?_, ?_⟩
  · rw [clip?, hcolumns, hrows]
  · exact Size.isNegative_eq_false_iff.2 ⟨hwidth, hheight⟩
  · rw [contains, columns_ofIntervals, rows_ofIntervals, Bool.and_eq_true]
    exact ⟨(Interval.contains_iff hwidth).2 ⟨hleft', hright'⟩,
      (Interval.contains_iff hheight).2 ⟨htop', hbottom'⟩⟩
  · have hx := r.columns.mem_clip_iff hw x
    have hy := r.rows.mem_clip_iff hh y
    rw [← hleft, ← hright] at hx
    rw [← htop, ← hbottom] at hy
    show columns.Covers x ∧ rows.Covers y ↔ _
    rw [Interval.Covers, Interval.Covers, hx, hy]
    exact and_and_and_comm
  · have hcolumns' := Interval.clip?_of_inside hw hwidth hleft' hright'
    have hrows' := Interval.clip?_of_inside hh hheight htop' hbottom'
    rw [clip?, columns_ofIntervals, rows_ofIntervals, hcolumns', hrows']

theorem contains_iff {r inner : Rect} (h : inner.IsProper) :
    r.contains inner = true
      ↔ (r.columns.start.toInt ≤ inner.columns.start.toInt ∧ inner.maxX ≤ r.maxX)
        ∧ r.rows.start.toInt ≤ inner.rows.start.toInt ∧ inner.maxY ≤ r.maxY := by
  rw [contains, Bool.and_eq_true, Interval.contains_iff h.columns.length_nonneg,
    Interval.contains_iff h.rows.length_nonneg]
  rfl

theorem maxX_ofSize (size : Size) : (ofSize size).maxX = size.w.toInt := Int.zero_add _

theorem maxY_ofSize (size : Size) : (ofSize size).maxY = size.h.toInt := Int.zero_add _

theorem isProper_ofSize {size : Size} (h : size.isNegative = false) : (ofSize size).IsProper := by
  obtain ⟨hw, hh⟩ := Size.isNegative_eq_false_iff.1 h
  have hw' := size.w.toInt_lt
  have hh' := size.h.toInt_lt
  refine ⟨⟨?_, ?_, ?_⟩, ⟨?_, ?_, ?_⟩⟩
  all_goals simp only [ofSize, columns, rows, Interval.stop, Int16.toInt_zero]
  all_goals omega

end Rect

end DialGraphics
