import DialGraphics.Bitmap.CircularRow
import DialGraphics.Proofs.Geometry.Clip
import Mathlib.Algebra.GroupWithZero.Nat

/-!
# Tables of rows

The rows of a round display are stored one right after the other. So no two of them overlap, and
all of them end where the stored pixels end.
-/

namespace DialGraphics.CircularRow

/-! ### Rows one after the other -/

/-- Each row starts where the one before it ends, and the first one at `start`. -/
def IsStacked (start : Nat) : List CircularRow → Prop
  | [] => True
  | r :: rows => r.offset = start ∧ IsStacked (start + r.span) rows

theorem IsStacked.le_offset {start i : Nat} {rows : List CircularRow} {r : CircularRow}
    (h : IsStacked start rows) (hr : rows[i]? = some r) : start ≤ r.offset := by
  induction rows generalizing start i with
  | nil => cases hr
  | cons first rows ih =>
    obtain ⟨hoffset, hrest⟩ := h
    cases i with
    | zero =>
      cases hr
      exact Nat.le_of_eq hoffset.symm
    | succ i => exact Nat.le_trans (Nat.le_add_right _ _) (ih hrest hr)

theorem IsStacked.end_le_offset {start i j : Nat} {rows : List CircularRow} {r s : CircularRow}
    (h : IsStacked start rows) (hij : i < j) (hr : rows[i]? = some r) (hs : rows[j]? = some s) :
    r.offset + r.span ≤ s.offset := by
  induction rows generalizing start i j with
  | nil => cases hr
  | cons first rows ih =>
    obtain ⟨hoffset, hrest⟩ := h
    cases j with
    | zero => exact absurd hij (Nat.not_lt_zero i)
    | succ j =>
      rw [List.getElem?_cons_succ] at hs
      cases i with
      | zero =>
        -- the rest of the table is stacked on the end of its first row
        cases hr
        rw [hoffset]
        exact hrest.le_offset hs
      | succ i =>
        rw [List.getElem?_cons_succ] at hr
        exact ih hrest (Nat.lt_of_succ_lt_succ hij) hr hs

theorem IsStacked.end_le_storedSize {start i : Nat} {rows : List CircularRow} {r : CircularRow}
    (h : IsStacked start rows) (hr : rows[i]? = some r) :
    r.offset + r.span ≤ storedSize rows := by
  have hi : i < rows.length := (List.getElem?_eq_some_iff.1 hr).1
  have hlast : rows[rows.length - 1]? = rows.getLast? := List.getLast?_eq_getElem?.symm
  cases hl : rows.getLast? with
  | none =>
    rw [List.getLast?_eq_none_iff.1 hl] at hi
    cases hi
  | some last =>
    rw [hl] at hlast
    rw [storedSize, hl]
    by_cases heq : i = rows.length - 1
    · rw [heq, hlast] at hr
      cases hr
      exact Nat.le_refl _
    · have hend := h.end_le_offset (by omega) hr hlast
      exact Nat.le_trans hend (Nat.le_add_right _ _)

/-! ### The table of a disk -/

theorem chord_le (d y : Nat) : chord d y ≤ d := by
  simp only [chord]
  split
  · exact Nat.zero_le d
  · exact Nat.min_le_left ..

theorem span_atRow {d : Nat} (hd : d ≤ 32767) (y offset : Nat) :
    (atRow d y offset).span = chord d y := by
  have hchord := chord_le d y
  have hlength : (atRow d y offset).maxX - (atRow d y offset).minX = (chord d y : Int) - 1 := by
    simp only [atRow]
    omega
  rw [span_eq (by omega), hlength]
  omega

theorem isStacked_sweep {d : Nat} (hd : d ≤ 32767) (start : Nat) (ys : List Nat) :
    IsStacked start
      (sweep (fun offset y => (offset + chord d y, atRow d y offset)) start ys).2 := by
  induction ys generalizing start with
  | nil => exact trivial
  | cons y ys ih =>
    rw [sweep_cons]
    refine ⟨rfl, ?_⟩
    rw [span_atRow hd]
    exact ih (start + chord d y)

theorem isStacked_table {size : Size} {rows : List CircularRow} (h : table size = .ok rows) :
    IsStacked 0 rows := by
  have hw := size.w.toInt_lt
  simp only [table] at h
  split at h
  · cases h
  · cases h
    exact isStacked_sweep (by omega) 0 _

theorem isEmpty_of_table {size : Size} {rows : List CircularRow} (h : table size = .ok rows) :
    size.isEmpty = false := by
  rw [table] at h
  split at h
  · cases h
  · rename_i hempty
    exact Bool.eq_false_iff.2 hempty

theorem length_table {size : Size} {rows : List CircularRow} (h : table size = .ok rows) :
    (rows.length : Int) = size.h.toInt := by
  obtain ⟨-, hh⟩ := Size.isEmpty_eq_false_iff.1 (isEmpty_of_table h)
  simp only [table] at h
  split at h
  · cases h
  · cases h
    rw [length_sweep, List.length_range]
    omega

/-! ### All stored pixels -/

theorem mem_sweep {d start : Nat} {ys : List Nat} {r : CircularRow}
    (hr : r ∈ (sweep (fun offset y => (offset + chord d y, atRow d y offset)) start ys).2) :
    ∃ y offset, r = atRow d y offset := by
  induction ys generalizing start with
  | nil => cases hr
  | cons y ys ih =>
    rw [sweep_cons] at hr
    rcases List.mem_cons.1 hr with hr | hr
    · exact ⟨y, start, hr⟩
    · exact ih hr

theorem eq_atRow_of_table {size : Size} {rows : List CircularRow} (h : table size = .ok rows)
    {r : CircularRow} (hr : r ∈ rows) : ∃ y offset, r = atRow size.w.toInt.toNat y offset := by
  simp only [table] at h
  split at h
  · cases h
  · cases h
    exact mem_sweep hr

theorem IsStacked.storedSize_eq {start : Nat} {rows : List CircularRow}
    (h : IsStacked start rows) (hrows : rows ≠ []) :
    storedSize rows = start + (rows.map span).sum := by
  induction rows generalizing start with
  | nil => exact absurd rfl hrows
  | cons r rows ih =>
    obtain ⟨hoffset, hrest⟩ := h
    cases rows with
    | nil =>
      show r.offset + r.span = _
      rw [hoffset]
      rfl
    | cons s rows =>
      have hlater : storedSize (r :: s :: rows) = storedSize (s :: rows) := rfl
      rw [hlater, ih hrest (List.cons_ne_nil s rows), List.map_cons (a := r), List.sum_cons,
        Nat.add_assoc]

theorem map_span_sweep {d : Nat} (hd : d ≤ 32767) (start : Nat) (ys : List Nat) :
    (sweep (fun offset y => (offset + chord d y, atRow d y offset)) start ys).2.map span
      = ys.map (chord d) := by
  induction ys generalizing start with
  | nil => rfl
  | cons y ys ih =>
    rw [sweep_cons, List.map_cons, List.map_cons, span_atRow hd, ih]

/-- The stored pixels of a disk are the chords of all rows. -/
theorem storedSize_table {size : Size} {rows : List CircularRow} (h : table size = .ok rows) :
    storedSize rows
      = ((List.range size.h.toInt.toNat).map (chord size.w.toInt.toNat)).sum := by
  have hw := size.w.toInt_lt
  have hstacked := isStacked_table h
  have hlength := length_table h
  obtain ⟨-, hh⟩ := Size.isEmpty_eq_false_iff.1 (isEmpty_of_table h)
  have hne : rows ≠ [] := by
    rintro rfl
    exact absurd hlength (Int.ne_of_lt hh)
  rw [hstacked.storedSize_eq hne, Nat.zero_add]
  simp only [table] at h
  split at h
  · cases h
  · cases h
    rw [map_span_sweep (by omega)]

theorem sum_chord_le (d n : Nat) : ((List.range n).map (chord d)).sum ≤ d * n := by
  induction n with
  | zero => exact Nat.zero_le _
  | succ n ih =>
    have hchord := chord_le d n
    rw [List.range_succ, List.map_append, List.sum_append, Nat.mul_succ]
    exact Nat.add_le_add ih (by simpa using hchord)

theorem storedSize_le {size : Size} {rows : List CircularRow} (h : table size = .ok rows) :
    storedSize rows ≤ size.w.toInt.toNat * size.h.toInt.toNat := by
  rw [storedSize_table h]
  exact sum_chord_le ..

end DialGraphics.CircularRow
