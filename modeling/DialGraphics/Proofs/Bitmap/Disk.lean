import DialGraphics.Proofs.Bitmap.CircularTable
import DialGraphics.Proofs.Bitmap.SquareRoot
import DialGraphics.Proofs.Bytes.Groups
import Mathlib.Data.Set.Function

/-!
# The disk of a round display

The pixels in the rows of a table are those whose centre lies on the disk. With coordinates doubled
the distance of a centre from the middle is odd if the diameter is even, and even if it is odd. That
is why a chord can be rounded up to the parity of the diameter without taking in another pixel.
-/

namespace DialGraphics.CircularRow

/-- The centre of a pixel lies on the disk of diameter `d`. All lengths are doubled. -/
def OnDisk (d x y : Nat) : Prop :=
  (2 * (x : Int) + 1 - d) ^ 2 + (2 * (y : Int) + 1 - d) ^ 2 ≤ (d : Int) ^ 2

instance (d x y : Nat) : Decidable (OnDisk d x y) := inferInstanceAs (Decidable (_ ≤ _))

/-- How far the centre of a column or row is from the middle. -/
def distance (d v : Nat) : Nat := (2 * (v : Int) + 1 - d).natAbs

theorem distance_parity (d v : Nat) : (distance d v + d) % 2 = 1 := by
  unfold distance
  omega

theorem onDisk_iff {d x y : Nat} :
    OnDisk d x y ↔ distance d x * distance d x + distance d y * distance d y ≤ d * d := by
  have hsquare : ∀ v : Nat, (2 * (v : Int) + 1 - d) ^ 2 = (distance d v * distance d v : Nat) := by
    intro v
    rw [Int.natCast_mul, distance, Int.natAbs_mul_self', Int.pow_succ, Int.pow_succ, Int.pow_zero,
      Int.one_mul]
  have hd : (d : Int) ^ 2 = (d * d : Nat) := by
    rw [Int.natCast_mul, Int.pow_succ, Int.pow_succ, Int.pow_zero, Int.one_mul]
  rw [OnDisk, hsquare, hsquare, hd]
  exact_mod_cast Iff.rfl

/-! ### Chords -/

theorem chord_eq_sqrt (d y : Nat) :
    chord d y
      = if d ≤ distance d y then 0
        else
          let w := Nat.sqrt (d * d - distance d y * distance d y)
          min d (if (d - w) % 2 = 0 then w else w + 1) := by
  simp only [chord, squareRoot_eq_sqrt]
  rfl

theorem sqrt_sub_le (d n : Nat) : Nat.sqrt (d * d - n) ≤ d := by
  have hle := Nat.sqrt_le_sqrt (Nat.sub_le (d * d) n)
  rwa [Nat.sqrt_eq] at hle

theorem chord_parity (d y : Nat) : chord d y = 0 ∨ (chord d y + d) % 2 = 0 := by
  rw [chord_eq_sqrt]
  split
  · exact Or.inl rfl
  · right
    have hle := sqrt_sub_le d (distance d y * distance d y)
    simp only
    split <;> omega

/-- A chord reaches exactly the centres that lie on the disk. -/
theorem lt_chord_iff {d y a : Nat} (ha : (a + d) % 2 = 1) :
    a < chord d y ↔ a * a + distance d y * distance d y ≤ d * d := by
  have hdistance := distance_parity d y
  rw [chord_eq_sqrt]
  split
  · rename_i hfar
    have hsquare : d * d ≤ distance d y * distance d y := Nat.mul_self_le_mul_self hfar
    constructor
    · exact fun h => absurd h (Nat.not_lt_zero a)
    · -- the centre of no row lies on the rim, so this row is beyond it
      intro h
      have hnear : distance d y * distance d y ≤ d * d := Nat.le_trans (Nat.le_add_left ..) h
      have := Nat.mul_self_le_mul_self_iff.1 hnear
      omega
  · rename_i hnear
    have hsquare : distance d y * distance d y ≤ d * d := Nat.mul_self_le_mul_self (by omega)
    have hroot : a ≤ Nat.sqrt (d * d - distance d y * distance d y)
        ↔ a * a + distance d y * distance d y ≤ d * d := by
      rw [Nat.le_sqrt]
      omega
    have hle := sqrt_sub_le d (distance d y * distance d y)
    rw [← hroot]
    simp only
    split <;> omega

/-! ### Rows -/

/-- A column is among the stored ones of a row. -/
def Covers (r : CircularRow) (x : Int) : Prop := r.minX ≤ x ∧ x ≤ r.maxX

theorem covers_atRow_iff {d x y offset : Nat} :
    (atRow d y offset).Covers x ↔ distance d x < chord d y := by
  have hle := chord_le d y
  have hparity := chord_parity d y
  simp only [Covers, atRow, distance]
  omega

/-- What a row of a disk stores: the pixels on the disk, the same number on either side of the
middle, and nothing if there are none. -/
structure IsDiskRow (d y : Nat) (r : CircularRow) : Prop where
  covers_iff : ∀ x < d, r.Covers x ↔ OnDisk d x y
  centred : r.span ≠ 0 → r.minX + r.maxX = (d : Int) - 1
  empty : (∀ x < d, ¬ OnDisk d x y) → r.span = 0
  minX_nonneg : 0 ≤ r.minX
  maxX_lt : r.maxX < d

theorem isDiskRow_atRow {d : Nat} (hd : d ≤ 32767) (y offset : Nat) :
    IsDiskRow d y (atRow d y offset) := by
  have hle := chord_le d y
  have hparity := chord_parity d y
  have hcovers : ∀ x < d, (atRow d y offset).Covers x ↔ OnDisk d x y := by
    intro x _
    rw [covers_atRow_iff, onDisk_iff, lt_chord_iff (distance_parity d x)]
  refine ⟨hcovers, ?_, ?_, ?_, ?_⟩
  · rw [span_atRow hd]
    intro hspan
    simp only [atRow]
    omega
  · rw [span_atRow hd]
    intro hnone
    rcases Nat.eq_zero_or_pos (chord d y) with hzero | hpos
    · exact hzero
    · -- the first column of a chord would be a pixel on the disk
      have hfirst : (d - chord d y) / 2 < d := by omega
      have hcovered : (atRow d y offset).Covers ((d - chord d y) / 2 : Nat) := by
        simp only [Covers, atRow]
        omega
      exact absurd ((hcovers _ hfirst).1 hcovered) (hnone _ hfirst)
  · simp only [atRow]
    omega
  · simp only [atRow]
    omega

theorem exists_atRow_of_getElem? {size : Size} {rows : List CircularRow}
    (h : table size = .ok rows) {y : Nat} {r : CircularRow} (hr : rows[y]? = some r) :
    ∃ offset, r = atRow size.w.toInt.toNat y offset := by
  simp only [table] at h
  split at h
  · cases h
  · cases h
    rw [getElem?_sweep] at hr
    obtain ⟨y', hy', rfl⟩ := Option.map_eq_some_iff.1 hr
    obtain ⟨hlt, rfl⟩ := List.getElem?_eq_some_iff.1 hy'
    rw [List.getElem_range]
    exact ⟨_, rfl⟩

/-! ### Places -/

theorem IsStacked.offset_eq {start y : Nat} {rows : List CircularRow} {r : CircularRow}
    (h : IsStacked start rows) (hr : rows[y]? = some r) :
    r.offset = start + ((rows.take y).map span).sum := by
  induction rows generalizing start y with
  | nil => cases hr
  | cons first rows ih =>
    obtain ⟨hoffset, hrest⟩ := h
    cases y with
    | zero =>
      cases hr
      exact hoffset
    | succ y =>
      rw [ih hrest hr, List.take_succ_cons, List.map_cons, List.sum_cons, Nat.add_assoc]

/-- Stacked rows leave no gap. -/
theorem IsStacked.exists_row {start n : Nat} {rows : List CircularRow} (h : IsStacked start rows)
    (hstart : start ≤ n) (hend : n < start + (rows.map span).sum) :
    ∃ (y : Nat) (r : CircularRow), rows[y]? = some r ∧ r.offset ≤ n ∧ n < r.offset + r.span := by
  induction rows generalizing start with
  | nil =>
    rw [List.map_nil, List.sum_nil] at hend
    omega
  | cons first rows ih =>
    obtain ⟨hoffset, hrest⟩ := h
    rw [List.map_cons, List.sum_cons] at hend
    by_cases hfirst : n < start + first.span
    · exact ⟨0, first, rfl, by omega, by omega⟩
    · obtain ⟨y, r, hr, hle, hlt⟩ := ih hrest (by omega) (by omega)
      exact ⟨y + 1, r, hr, hle, hlt⟩

/-- Where the pixel at a column and row is among the stored ones. -/
def placeOf (rows : List CircularRow) (p : Nat × Nat) : Nat :=
  match rows[p.2]? with
  | some r => r.offset + (p.1 - r.minX).toNat
  | none => 0

/-- The pixels that are stored. -/
def storedPixels (rows : List CircularRow) : Set (Nat × Nat) :=
  {p | ∃ r, rows[p.2]? = some r ∧ r.Covers p.1}

theorem placeOf_eq {rows : List CircularRow} {p : Nat × Nat} {r : CircularRow}
    (hr : rows[p.2]? = some r) : placeOf rows p = r.offset + (p.1 - r.minX).toNat := by
  rw [placeOf, hr]

section

variable {d : Nat} {rows : List CircularRow}

theorem lt_span_of_covers {y : Nat} {r : CircularRow} (hd : d ≤ 32767) (hr : IsDiskRow d y r)
    {x : Int} (hx : r.Covers x) : (x - r.minX).toNat < r.span := by
  have hmin := hr.minX_nonneg
  have hmax := hr.maxX_lt
  obtain ⟨hlow, hhigh⟩ := hx
  rw [span_eq (by omega)]
  omega

/-- In stacked rows of a disk each place from the first to the last has one pixel. -/
theorem bijOn_placeOf (hd : d ≤ 32767) (hstacked : IsStacked 0 rows) (hne : rows ≠ [])
    (hrows : ∀ y r, rows[y]? = some r → IsDiskRow d y r) :
    Set.BijOn (placeOf rows) (storedPixels rows) (Set.Iio (storedSize rows)) := by
  refine ⟨?_, ?_, ?_⟩
  · rintro p ⟨r, hr, hx⟩
    have hspan := lt_span_of_covers hd (hrows _ _ hr) hx
    have hend := hstacked.end_le_storedSize hr
    rw [Set.mem_Iio, placeOf_eq hr]
    omega
  · rintro ⟨x, y⟩ ⟨r, hr, hx⟩ ⟨x', y'⟩ ⟨r', hr', hx'⟩ hsame
    rw [placeOf_eq hr, placeOf_eq hr'] at hsame
    have hspan := lt_span_of_covers hd (hrows _ _ hr) hx
    have hspan' := lt_span_of_covers hd (hrows _ _ hr') hx'
    rcases Nat.lt_trichotomy y y' with hlt | heq | hlt
    · have := hstacked.end_le_offset hlt hr hr'
      omega
    · cases heq
      cases hr.symm.trans hr'
      have hleft := hx.1
      have hleft' := hx'.1
      simp only at hsame hleft hleft'
      rw [Prod.mk.injEq]
      exact ⟨by omega, rfl⟩
    · have := hstacked.end_le_offset hlt hr' hr
      omega
  · intro n hn
    rw [Set.mem_Iio, hstacked.storedSize_eq hne] at hn
    obtain ⟨y, r, hr, hle, hlt⟩ := hstacked.exists_row (Nat.zero_le n) hn
    have hdisk := hrows y r hr
    have hmin := hdisk.minX_nonneg
    have hmax := hdisk.maxX_lt
    rw [span_eq (by omega)] at hlt
    refine ⟨(r.minX.toNat + (n - r.offset), y), ⟨r, hr, ?_⟩, ?_⟩
    · unfold Covers
      simp only
      omega
    · rw [placeOf_eq hr]
      simp only
      omega

end

theorem storedPixels_eq {d : Nat} {rows : List CircularRow}
    (hrows : ∀ y r, rows[y]? = some r → IsDiskRow d y r) :
    storedPixels rows = {p | p.1 < d ∧ p.2 < rows.length ∧ OnDisk d p.1 p.2} := by
  ext p
  constructor
  · rintro ⟨r, hr, hx⟩
    have hdisk := hrows _ _ hr
    have hlt : p.1 < d := by
      have hmax := hdisk.maxX_lt
      have hright := hx.2
      omega
    exact ⟨hlt, (List.getElem?_eq_some_iff.1 hr).1, (hdisk.covers_iff _ hlt).1 hx⟩
  · rintro ⟨hx, hy, hon⟩
    have hr := List.getElem?_eq_getElem hy
    exact ⟨_, hr, ((hrows _ _ hr).covers_iff _ hx).2 hon⟩

end DialGraphics.CircularRow
