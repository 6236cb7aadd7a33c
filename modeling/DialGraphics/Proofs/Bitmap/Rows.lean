import DialGraphics.Bitmap.Basic
import DialGraphics.Proofs.Bitmap.CircularTable
import DialGraphics.Proofs.Geometry.Clip

/-!
# Stored rows

Where each row of a bitmap is among its pixel bytes, and when all rows of the bounds are there. Rows
never overlap, and they end in front of a palette at the end of the storage.
-/

namespace DialGraphics.Bitmap

/-- What holds of every bitmap, whatever has been done with it: its bounds are proper, and a
circular bitmap, and no other, has a table, whose rows are all stored. -/
structure WellFormed (b : Bitmap) : Prop where
  proper : b.bounds.IsProper
  isSome_rows : b.rows.isSome = true ↔ b.format = .circular
  stacked : ∀ rows ∈ b.rows, CircularRow.IsStacked 0 rows
  stored : ∀ rows ∈ b.rows, CircularRow.storedSize rows ≤ b.pixels.toBytes.length
  count_le : ∀ rows ∈ b.rows, rows.length ≤ 32767
  palette_fixed : ∀ offset, b.palette = .trailing offset → b.rows = none

/-- Row `y` is stored, with every column up to the right end of the bounds. Rows of a circular
bitmap have the columns that the display has. -/
def HoldsRow (b : Bitmap) (y : Int) : Prop :=
  ∃ row, b.row? y = some row
    ∧ (b.format ≠ .circular → b.format.bitsPerPixel * b.bounds.maxX ≤ 8 * row.data.length)

/-- All rows of the bounds are stored. -/
def HoldsBounds (b : Bitmap) : Prop := ∀ y, b.bounds.rows.Covers y → b.HoldsRow y

/-! ### Pixel bytes -/

theorem data_of_not_trailing {b : Bitmap} (h : ∀ offset, b.palette ≠ .trailing offset) :
    b.data = b.pixels.toBytes := by
  unfold data
  split
  · rename_i offset hoffset
    exact absurd hoffset (h offset)
  · rfl

theorem length_data_le_trailing {b : Bitmap} {offset : Nat} (h : b.palette = .trailing offset) :
    b.data.length ≤ offset := by
  simp only [data, h, List.length_take]
  exact Nat.min_le_left ..

theorem WellFormed.data_eq_of_table {b : Bitmap} (hb : b.WellFormed)
    {rows : List CircularRow} (hrows : b.rows = some rows) : b.data = b.pixels.toBytes := by
  apply data_of_not_trailing
  intro offset hoffset
  rw [hb.palette_fixed offset hoffset] at hrows
  cases hrows

/-! ### Places -/

def rowPlace? (b : Bitmap) (y : Int) : Option (Nat × Nat) :=
  if y < 0 then none
  else
    match b.rows with
    | some rows => rows[y.toNat]?.map fun row => (row.offset, row.span)
    | none => some (y.toNat * b.rowSize.toNat, b.rowSize.toNat)

theorem map_data_row? (b : Bitmap) (y : Int) :
    (b.row? y).map RowInfo.data = (b.rowPlace? y).bind fun p => b.data.slice? p.1 p.2 := by
  unfold row? rowPlace?
  split
  · rfl
  · cases b.rows with
    | none =>
      simp only [Option.bind_some, Option.map_map]
      exact Option.map_id' ..
    | some rows =>
      simp only
      cases rows[y.toNat]? with
      | none => rfl
      | some row =>
        simp only [Option.bind_some, Option.map_some, Option.map_map]
        exact Option.map_id' ..

theorem row?_eq_some {b : Bitmap} {y : Int} {row : RowInfo} (h : b.row? y = some row) :
    ∃ start n, b.rowPlace? y = some (start, n) ∧ start + n ≤ b.data.length
      ∧ row.data = (b.data.drop start).take n := by
  have hplace := b.map_data_row? y
  rw [h, Option.map_some] at hplace
  obtain ⟨⟨start, n⟩, hp, hslice⟩ := Option.bind_eq_some_iff.1 hplace.symm
  rw [Bytes.slice?_eq] at hslice
  split at hslice
  · rename_i hle
    exact ⟨start, n, hp, hle, (Option.some.inj hslice).symm⟩
  · cases hslice

theorem end_le_start_of_lt {b : Bitmap} (hb : b.WellFormed) {y z : Int} (hyz : y < z)
    {start n start' n' : Nat} (hy : b.rowPlace? y = some (start, n))
    (hz : b.rowPlace? z = some (start', n')) : start + n ≤ start' := by
  unfold rowPlace? at hy hz
  split at hy
  · cases hy
  · rw [if_neg (by omega)] at hz
    have hlt : y.toNat < z.toNat := by omega
    cases hrows : b.rows with
    | none =>
      rw [hrows] at hy hz
      cases hy
      cases hz
      rw [← Nat.succ_mul]
      exact Nat.mul_le_mul_right _ hlt
    | some rows =>
      rw [hrows] at hy hz
      obtain ⟨r, hr, hplace⟩ := Option.map_eq_some_iff.1 hy
      obtain ⟨s, hs, hplace'⟩ := Option.map_eq_some_iff.1 hz
      cases hplace
      cases hplace'
      exact (hb.stacked rows hrows).end_le_offset hlt hr hs

/-! ### Rows of the bounds -/

/-- If the rows that are stored are the first ones, those of the bounds are stored if the last of
them is. -/
theorem holdsBounds_iff {b : Bitmap} (hproper : b.bounds.IsProper) {hasRows : Nat → Prop}
    (hrow : ∀ y : Nat, b.HoldsRow y ↔ hasRows (y + 1))
    (hless : ∀ m n, m ≤ n → hasRows n → hasRows m) :
    b.HoldsBounds ↔ b.bounds.size.h = 0 ∨ hasRows b.bounds.maxY.toNat := by
  have hstart := hproper.rows.start_nonneg
  have hlength := hproper.rows.length_nonneg
  have hstop : b.bounds.rows.stop = b.bounds.rows.start.toInt + b.bounds.rows.length.toInt := rfl
  have hempty : b.bounds.size.h = 0 ↔ b.bounds.rows.length.toInt = 0 := Int16.toInt_inj.symm
  have hmaxY : b.bounds.maxY = b.bounds.rows.stop := rfl
  rw [hempty, hmaxY]
  constructor
  · intro hall
    by_cases h0 : b.bounds.rows.length.toInt = 0
    · exact Or.inl h0
    · right
      -- bounds with rows cover the last of them, and the rows above it are then stored as well
      have hlast := hall (b.bounds.rows.stop - 1) ⟨by omega, by omega⟩
      obtain ⟨n, hn⟩ := Int.eq_ofNat_of_zero_le (show 0 ≤ b.bounds.rows.stop - 1 by omega)
      rw [hn, hrow] at hlast
      have hcount : b.bounds.rows.stop.toNat = n + 1 := by omega
      rw [hcount]
      exact hlast
  · intro hcase y hy
    obtain ⟨hmin, hmax⟩ := hy
    obtain ⟨n, rfl⟩ := Int.eq_ofNat_of_zero_le (show 0 ≤ y by omega)
    rw [hrow]
    rcases hcase with h0 | hrows
    · omega
    · exact hless _ _ (by omega) hrows

theorem row?_of_rows_none {b : Bitmap} (hrows : b.rows = none) (y : Nat) :
    b.row? y
      = if (y + 1) * b.rowSize.toNat ≤ b.data.length then
          some ⟨(b.data.drop (y * b.rowSize.toNat)).take b.rowSize.toNat, 0,
            Interval.clamp (b.bounds.maxX - 1) (-1) maxCoordinate⟩
        else none := by
  simp only [row?, hrows, Bytes.slice?_eq, Int.toNat_natCast]
  rw [if_neg (by omega), Nat.succ_mul]
  split
  · rfl
  · rfl

theorem holdsBounds_iff_of_fixed {b : Bitmap} (hproper : b.bounds.IsProper) (hrows : b.rows = none)
    (hwide : b.format.bitsPerPixel * b.bounds.maxX ≤ 8 * b.rowSize.toNat) :
    b.HoldsBounds
      ↔ b.bounds.size.h = 0 ∨ b.bounds.maxY.toNat * b.rowSize.toNat ≤ b.data.length := by
  refine @holdsBounds_iff b hproper (fun n => n * b.rowSize.toNat ≤ b.data.length) ?_ ?_
  · intro y
    constructor
    · rintro ⟨row, hrow, -⟩
      rw [row?_of_rows_none hrows] at hrow
      split at hrow
      · assumption
      · cases hrow
    · intro hfits
      refine ⟨_, (row?_of_rows_none hrows y).trans (if_pos hfits), ?_⟩
      intro _
      rw [Nat.succ_mul] at hfits
      simp only [List.length_take, List.length_drop]
      rw [Nat.min_eq_left (by omega)]
      exact hwide
  · intro m n hmn hn
    exact Nat.le_trans (Nat.mul_le_mul_right _ hmn) hn

theorem isSome_row?_of_table {b : Bitmap} (hb : b.WellFormed) {rows : List CircularRow}
    (hrows : b.rows = some rows) (y : Nat) :
    (b.row? y).isSome = true ↔ y < rows.length := by
  simp only [row?, hrows, hb.data_eq_of_table hrows, Bytes.slice?_eq, Int.toNat_natCast]
  rw [if_neg (by omega)]
  cases hr : rows[y]? with
  | none =>
    have hle : rows.length ≤ y := List.getElem?_eq_none_iff.1 hr
    constructor
    · intro h
      cases h
    · intro hlt
      omega
  | some r =>
    have hlt : y < rows.length := (List.getElem?_eq_some_iff.1 hr).1
    have hend := (hb.stacked rows hrows).end_le_storedSize hr
    have hstored := hb.stored rows hrows
    simp only [Option.bind_some]
    rw [if_pos (by omega)]
    exact ⟨fun _ => hlt, fun _ => rfl⟩

theorem holdsBounds_iff_of_table {b : Bitmap} (hb : b.WellFormed) {rows : List CircularRow}
    (hrows : b.rows = some rows) :
    b.HoldsBounds ↔ b.bounds.size.h = 0 ∨ b.bounds.maxY.toNat ≤ rows.length := by
  have hcircular : b.format = .circular := hb.isSome_rows.1 (by rw [hrows]; rfl)
  refine @holdsBounds_iff b hb.proper (fun n => n ≤ rows.length) ?_ ?_
  · intro y
    show b.HoldsRow y ↔ y < rows.length
    rw [← isSome_row?_of_table hb hrows y, Option.isSome_iff_exists]
    constructor
    · rintro ⟨row, hrow, -⟩
      exact ⟨row, hrow⟩
    · rintro ⟨row, hrow⟩
      exact ⟨row, hrow, fun hformat => absurd hcircular hformat⟩
  · intro m n hmn hn
    exact Nat.le_trans hmn hn

end DialGraphics.Bitmap
