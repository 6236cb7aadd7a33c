import DialGraphics.Proofs.Bitmap.Reachable

/-!
# Bounds inside the storage

New bounds are measured against all bytes of the storage, and new storage against the bounds. When
all rows of the bounds are stored afterwards, for every bitmap that can be come by.
-/

namespace DialGraphics

namespace Bitmap

variable {b : Bitmap}

/-! ### New bounds -/

theorem bitsPerPixel_mul_le_of_storageSize (hrows : b.rows = none) {r : Rect}
    (hmaxX : r.maxX ≤ b.storageSize.w.toInt) :
    b.format.bitsPerPixel * r.maxX ≤ 8 * b.rowSize.toNat := by
  have hw : b.storageSize.w.toInt
      = (min (b.rowSize.toNat * 8 / b.format.bitsPerPixel) maxCoordinate : Nat) := by
    simp only [storageSize, hrows]
    exact Int16.toInt_ofNat_of_lt (Nat.lt_succ_of_le (Nat.min_le_right ..))
  have hcolumns : r.maxX ≤ (b.rowSize.toNat * 8 / b.format.bitsPerPixel : Nat) := by
    rw [hw] at hmaxX
    generalize b.rowSize.toNat * 8 / b.format.bitsPerPixel = count at hmaxX ⊢
    omega
  have hbits : (b.format.bitsPerPixel : Int) * r.maxX
      ≤ b.format.bitsPerPixel * (b.rowSize.toNat * 8 / b.format.bitsPerPixel : Nat) :=
    Int.mul_le_mul_of_nonneg_left hcolumns (Int.natCast_nonneg _)
  have hdiv := Nat.mul_div_le (b.rowSize.toNat * 8) b.format.bitsPerPixel
  refine Int.le_trans hbits ?_
  rw [← Int.natCast_mul]
  omega

theorem maxY_mul_le_of_storageSize (hrows : b.rows = none) {r : Rect}
    (hmaxY : r.maxY ≤ b.storageSize.h.toInt) :
    r.maxY.toNat * b.rowSize.toNat ≤ b.pixels.toBytes.length := by
  have hh : b.storageSize.h.toInt
      = (min (b.pixels.toBytes.length / b.rowSize.toNat) maxCoordinate : Nat) := by
    simp only [storageSize, hrows]
    exact Int16.toInt_ofNat_of_lt (Nat.lt_succ_of_le (Nat.min_le_right ..))
  have hcount : r.maxY.toNat ≤ b.pixels.toBytes.length / b.rowSize.toNat := by
    rw [hh] at hmaxY
    generalize b.pixels.toBytes.length / b.rowSize.toNat = count at hmaxY ⊢
    omega
  exact Nat.le_trans (Nat.mul_le_mul_right _ hcount) (Nat.div_mul_le_self _ _)

theorem maxY_le_of_table (hb : b.WellFormed) {rows : List CircularRow} (hrows : b.rows = some rows)
    {r : Rect} (hmaxY : r.maxY ≤ b.storageSize.h.toInt) : r.maxY.toNat ≤ rows.length := by
  have hle := hb.count_le rows hrows
  have hh : b.storageSize.h.toInt = (rows.length : Int) := by
    simp only [storageSize, hrows]
    exact Int16.toInt_ofNat_of_lt (Nat.lt_succ_of_le hle)
  omega

/-- Bounds that end inside the storage have all their rows stored, unless they reach into a palette
behind the pixels. -/
theorem holdsBounds_withBounds_iff (hb : b.WellFormed) {r : Rect} (hproper : r.IsProper)
    (hmaxX : r.maxX ≤ b.storageSize.w.toInt) (hmaxY : r.maxY ≤ b.storageSize.h.toInt) :
    HoldsBounds { b with bounds := r }
      ↔ ∀ offset, b.palette = .trailing offset
        → r.size.h = 0 ∨ r.maxY.toNat * b.rowSize.toNat ≤ b.data.length := by
  rcases Option.eq_none_or_eq_some b.rows with hrows | ⟨rows, hrows⟩
  · have hiff := @holdsBounds_iff_of_fixed { b with bounds := r } hproper hrows
      (bitsPerPixel_mul_le_of_storageSize hrows hmaxX)
    rw [hiff]
    constructor
    · intro hcase _ _
      exact hcase
    · intro hcase
      by_cases htrailing : ∃ offset, b.palette = .trailing offset
      · obtain ⟨offset, hoffset⟩ := htrailing
        exact hcase offset hoffset
      · right
        -- without a palette behind them the pixel bytes are all that was measured
        have hdata : b.data = b.pixels.toBytes :=
          data_of_not_trailing fun offset hoffset => htrailing ⟨offset, hoffset⟩
        show r.maxY.toNat * b.rowSize.toNat ≤ b.data.length
        rw [hdata]
        exact maxY_mul_le_of_storageSize hrows hmaxY
  · have hiff := holdsBounds_iff_of_table (hb.withBounds hproper) hrows
    rw [hiff]
    constructor
    · intro _ offset hoffset
      rw [hb.palette_fixed offset hoffset] at hrows
      cases hrows
    · intro _
      exact Or.inr (maxY_le_of_table hb hrows hmaxY)

/-! ### New storage -/

theorem bitsPerPixel_mul_le_of_rowStride {bounds : Rect} (hproper : bounds.IsProper)
    {format : PixelFormat} (hformat : format ≠ .circular) {rowSize : Nat}
    (hwide : format.rowStride (Interval.clamp bounds.maxX 0 65535).toNat ≤ rowSize) :
    format.bitsPerPixel * bounds.maxX ≤ 8 * rowSize := by
  have hmin := hproper.columns.stop_nonneg
  have hmax := hproper.columns.stop_le
  have hclamp : Interval.clamp bounds.maxX 0 65535 = bounds.maxX := by
    unfold Interval.clamp Rect.maxX
    omega
  have hwidth : (bounds.maxX.toNat : Int) = bounds.maxX := Int.toNat_of_nonneg hmin
  have hstride := PixelFormat.bitsPerPixel_mul_le hformat bounds.maxX.toNat
  rw [hclamp] at hwide
  rw [← hwidth, ← Int.natCast_mul]
  omega

theorem maxY_le_length_iff {bounds : Rect} (hproper : bounds.IsProper) {rows : List CircularRow}
    (htable : CircularRow.table bounds.size = .ok rows) :
    (bounds.size.h = 0 ∨ bounds.maxY.toNat ≤ rows.length) ↔ bounds.origin.y = 0 := by
  have hlength := CircularRow.length_table htable
  obtain ⟨-, hheight⟩ := Size.isEmpty_eq_false_iff.1 (CircularRow.isEmpty_of_table htable)
  have hstart : 0 ≤ bounds.origin.y.toInt := hproper.rows.start_nonneg
  have hmaxY : bounds.maxY = bounds.origin.y.toInt + bounds.size.h.toInt := rfl
  have horigin : bounds.origin.y = 0 ↔ bounds.origin.y.toInt = 0 := Int16.toInt_inj.symm
  have hempty : bounds.size.h = 0 ↔ bounds.size.h.toInt = 0 := Int16.toInt_inj.symm
  rw [horigin, hempty, hmaxY]
  omega

/-- Storage that is taken holds all rows of the bounds, unless it is circular and the bounds start
below its first row. -/
theorem holdsBounds_of_setData_iff (hb : b.WellFormed) {b' : Bitmap} {pixels old : PixelSource}
    {format : PixelFormat} {rowSize : UInt16}
    (h : b.setData pixels format rowSize = .ok (b', old)) :
    b'.HoldsBounds ↔ format ≠ .circular ∨ b.bounds.origin.y = 0 := by
  have hb' := hb.setData h
  rcases b.setData_cases pixels format rowSize with hok | herror
  · obtain ⟨b₁, hb₁, hpixels, hformat, hbounds, hpalette, hlayout⟩ := hok
    cases hb₁.symm.trans h
    rcases hlayout with ⟨hfixed, hrows, hsize, hwide, hlong⟩ | ⟨rows, hcircular, hrows, htable, -⟩
    · have hscaled : b'.format.bitsPerPixel * b'.bounds.maxX ≤ 8 * b'.rowSize.toNat := by
        rw [hformat, hbounds, hsize]
        exact bitsPerPixel_mul_le_of_rowStride hb.proper hfixed hwide
      have hreaches : b'.bounds.maxY.toNat * b'.rowSize.toNat ≤ b'.data.length := by
        rw [data_of_not_trailing hpalette, hpixels, hbounds, hsize, Nat.mul_comm]
        exact hlong
      rw [holdsBounds_iff_of_fixed hb'.proper hrows hscaled]
      exact ⟨fun _ => Or.inl hfixed, fun _ => Or.inr hreaches⟩
    · -- the table counts from row 0, the bounds from their origin
      rw [holdsBounds_iff_of_table hb' hrows, hbounds, maxY_le_length_iff hb.proper htable]
      exact ⟨Or.inr, fun hcase => hcase.resolve_left fun hne => hne hcircular⟩
  · cases herror.symm.trans h

end Bitmap

namespace HeldBitmap

/-- New bounds are refused, which changes nothing, or taken. When they are taken their rows are all
stored, with all their columns, unless they reach into a palette behind the pixels: the storage is
measured together with its palette. -/
theorem setBounds_holdsBounds_iff {h : HeldBitmap} (hb : h.bitmap.Reachable) (r : Rect) :
    h.setBounds r = (.error .badParameter, h)
      ∨ ∃ b, h.setBounds r = (.ok (), { h with bitmap := b }) ∧ b.bounds = r
        ∧ (b.HoldsBounds
          ↔ ∀ offset, h.bitmap.palette = .trailing offset
            → r.size.h = 0 ∨ r.maxY.toNat * h.bitmap.rowSize.toNat ≤ h.bitmap.data.length) := by
  rcases h.setBounds_cases r with ⟨hok, hproper, hmaxX, hmaxY⟩ | herror
  · right
    exact ⟨_, hok, rfl, Bitmap.holdsBounds_withBounds_iff hb.wellFormed hproper hmaxX hmaxY⟩
  · exact Or.inl herror

def paletteFile : Bytes :=
  [1, 0, 6, 16, 0, 0, 0, 0, 4, 0, 2, 0, 0x1b, 0xe4, 0xc0, 0xd5, 0xea, 0xff]

def paletteBitmap : Bitmap :=
  ⟨.borrowed (paletteFile.drop 12), .trailing 2, 1, .palette2, 1, .ofSize ⟨4, 2⟩, none⟩

theorem setBounds_paletteBitmap :
    paletteBitmap.Reachable
      ∧ ∃ b, setBounds ⟨paletteBitmap, []⟩ ⟨⟨1, 1⟩, ⟨3, 1⟩⟩ = (.ok (), ⟨b, []⟩)
        ∧ b.HoldsBounds := by
  have hmade : Bitmap.ofRaw paletteFile .standard = .ok paletteBitmap := rfl
  have hreach : paletteBitmap.Reachable := .made (.raw hmade)
  rcases setBounds_holdsBounds_iff (h := ⟨paletteBitmap, []⟩) hreach ⟨⟨1, 1⟩, ⟨3, 1⟩⟩ with
    herror | ⟨b, hok, -, hiff⟩
  · cases herror
  · refine ⟨hreach, b, hok, hiff.2 ?_⟩
    intro offset _
    exact Or.inr (by decide)

/-- The four entries are taken for rows, and then the rows are not there. -/
theorem setBounds_into_palette :
    Bitmap.ofRaw paletteFile .standard = .ok paletteBitmap
      ∧ ∃ b, setBounds ⟨paletteBitmap, []⟩ ⟨⟨0, 0⟩, ⟨4, 6⟩⟩ = (.ok (), ⟨b, []⟩)
        ∧ b.bounds.rows.Covers 2 ∧ b.row? 2 = none :=
  ⟨rfl, _, rfl, by decide, by decide⟩

/-- New storage is refused, which changes nothing, or taken, which leaves the bounds as they are.
When it is taken all rows of the bounds are stored, with all their columns, unless it is circular
and the bounds do not start at its first row: the table of rows is made for the size alone. -/
theorem setData_holdsBounds_iff {h : HeldBitmap} (hb : h.bitmap.Reachable) (pixels : PixelSource)
    (format : PixelFormat) (rowSize : UInt16) :
    h.setData pixels format rowSize = (.error .badParameter, h)
      ∨ ∃ b, h.setData pixels format rowSize = (.ok (), ⟨b, h.displaced ++ [h.bitmap.pixels]⟩)
        ∧ b.bounds = h.bitmap.bounds
        ∧ (b.HoldsBounds ↔ format ≠ .circular ∨ h.bitmap.bounds.origin.y = 0) := by
  rcases h.setData_cases pixels format rowSize with ⟨b, hset, hok⟩ | herror
  · right
    refine ⟨b, hok, ?_, Bitmap.holdsBounds_of_setData_iff hb.wellFormed hset⟩
    rcases h.bitmap.setData_cases pixels format rowSize with ⟨b₁, hb₁, -, -, hbounds, -⟩ | herror
    · cases hb₁.symm.trans hset
      exact hbounds
    · cases herror.symm.trans hset
  · exact Or.inl herror

def columnBitmap : Bitmap := ⟨.owned [0, 0], .absent, 1, .color, 1, .ofSize ⟨1, 2⟩, none⟩

theorem setData_columnBitmap :
    columnBitmap.Reachable
      ∧ ∃ b, setData ⟨columnBitmap, []⟩ (.owned (List.replicate 8 255)) .mono 4
          = (.ok (), ⟨b, [columnBitmap.pixels]⟩)
        ∧ b.bounds = columnBitmap.bounds ∧ b.HoldsBounds := by
  have hmade : Bitmap.blank ⟨1, 2⟩ .color .standard = .ok columnBitmap := rfl
  have hreach : columnBitmap.Reachable := .made (.blank hmade)
  rcases setData_holdsBounds_iff (h := ⟨columnBitmap, []⟩) hreach (.owned (List.replicate 8 255))
    .mono 4 with herror | ⟨b, hok, hbounds, hiff⟩
  · cases herror
  · exact ⟨hreach, b, hok, hbounds, hiff.2 (Or.inl (by decide))⟩

/-- The second row of a column moves below a table of one row. -/
theorem setData_circular_below :
    Bitmap.blank ⟨1, 2⟩ .color .standard = .ok columnBitmap
      ∧ ∃ lower b old, setBounds ⟨columnBitmap, []⟩ ⟨⟨0, 1⟩, ⟨1, 1⟩⟩ = (.ok (), lower)
        ∧ lower.setData (.owned [7]) .circular 0 = (.ok (), ⟨b, [old]⟩)
        ∧ b.bounds.rows.Covers 1 ∧ b.row? 1 = none :=
  ⟨rfl, _, _, _, rfl, rfl, by decide, by decide⟩

end HeldBitmap

end DialGraphics
