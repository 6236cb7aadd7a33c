import DialGraphics.Proofs.Bitmap.Bounds
import DialGraphics.Proofs.Bitmap.Filled
import DialGraphics.Proofs.Bitmap.PaletteForm

/-!
# Storage measured against the bounds

For every bitmap that can be come by, rows of one length reach as far as the bounds, in both
directions, and only a format with a palette has one behind the pixels. The bytes are measured all
together, so this holds of bitmaps as well whose bounds reach into their palette.
-/

namespace DialGraphics.Bitmap

/-- The bytes of the storage, a palette among them, reach to the far corner of the bounds. -/
structure IsMeasured (b : Bitmap) : Prop where
  palettized : ∀ offset, b.palette = .trailing offset → b.format.isPalettized = true
  reaches : b.rows = none → b.bounds.maxY = 0
    ∨ (b.format.bitsPerPixel * b.bounds.maxX ≤ 8 * b.rowSize.toNat
      ∧ b.bounds.maxY.toNat * b.rowSize.toNat ≤ b.pixels.toBytes.length)

variable {b b' : Bitmap}

/-! ### New bitmaps -/

theorem length_data_le (b : Bitmap) : b.data.length ≤ b.pixels.toBytes.length := by
  unfold data
  split
  · rw [List.length_take]
    exact Nat.min_le_right ..
  · exact Nat.le_refl _

/-- A stored row has all that is needed for itself and the rows above it. -/
theorem HoldsRow.reaches {n : Nat} (hrow : b.HoldsRow n) (hrows : b.rows = none)
    (hformat : b.format ≠ .circular) :
    b.format.bitsPerPixel * b.bounds.maxX ≤ 8 * b.rowSize.toNat
      ∧ (n + 1) * b.rowSize.toNat ≤ b.pixels.toBytes.length := by
  obtain ⟨row, hrow, hwide⟩ := hrow
  have hbits := hwide hformat
  rw [row?_of_rows_none hrows] at hrow
  split at hrow
  · rename_i hstored
    cases hrow
    simp only [List.length_take] at hbits
    exact ⟨by omega, Nat.le_trans hstored b.length_data_le⟩
  · cases hrow

/-- A bitmap that stores all its rows, and has no others above them. -/
theorem IsSound.isMeasured {size : Size} (hb : b.IsSound) (hbounds : b.bounds = .ofSize size)
    (hpalette : ∀ offset, b.palette = .trailing offset → b.format.isPalettized = true) :
    b.IsMeasured := by
  refine ⟨hpalette, fun hrows => ?_⟩
  have hnonneg := hb.proper.rows.stop_nonneg
  have hstart : b.bounds.rows.start.toInt = 0 := by
    rw [hbounds]
    exact Int16.toInt_zero
  have hformat : b.format ≠ .circular := fun hcircular => by
    have hsome := hb.isSome_rows.2 hcircular
    rw [hrows] at hsome
    cases hsome
  by_cases hempty : b.bounds.maxY = 0
  · exact Or.inl hempty
  · obtain ⟨n, hn⟩ := Int.eq_ofNat_of_zero_le (show 0 ≤ b.bounds.maxY - 1 by
      unfold Rect.maxY at hempty ⊢
      omega)
    have hlast : b.bounds.rows.Covers n := by
      constructor
      · omega
      · show (n : Int) < b.bounds.maxY
        omega
    have hcount : b.bounds.maxY.toNat = n + 1 := by omega
    rw [hcount]
    exact Or.inr ((hb.holds n hlast).reaches hrows hformat)

theorem HasColors.ne_trailing {format : PixelFormat} {palette : PaletteSource}
    (h : HasColors format palette) (offset : Nat) : palette ≠ .trailing offset := by
  rintro rfl
  exact h

theorem IsFresh.isMeasured (h : IsFresh b) (hb : b.IsSound) : b.IsMeasured := by
  obtain ⟨size, format, hfilled⟩ := h.exists_isFilled
  exact hb.isMeasured hfilled.bounds fun offset hoffset =>
    absurd hoffset (hfilled.colors.ne_trailing offset)

theorem isMeasured_of_blankWithPalette {size : Size} {format : PixelFormat} {palette : Palette}
    {platform : Platform} (h : blankWithPalette size format palette platform = .ok b) :
    b.IsMeasured := by
  have hb := isSound_of_blankWithPalette h
  simp only [blankWithPalette] at h
  split at h
  · obtain ⟨zeros, hzeros, rfl⟩ := map_eq_ok_iff.1 h
    have hbounds : zeros.bounds = .ofSize size := (hasShape_of_allocateBlank hzeros).bounds
    refine hb.isMeasured hbounds fun offset hoffset => ?_
    cases hoffset
  · cases h

theorem isPalettized_of_layoutPalette {bytes : Bytes} {platform : Platform} {l : RawLayout}
    (hl : RawLayout.parse bytes platform = .ok l) {offset : Nat}
    (h : layoutPalette l = .trailing offset) : l.format.isPalettized = true := by
  obtain ⟨-, hlength, -⟩ := RawLayout.parse_eq_ok hl
  unfold layoutPalette at h
  split at h
  · rename_i hpos
    rw [hlength, PixelFormat.paletteSize] at hpos
    split at hpos
    · assumption
    · cases hpos
  · cases h

theorem isMeasured_of_ofLayout {bytes : Bytes} {platform : Platform} {pixels : PixelSource}
    {l : RawLayout} (hl : RawLayout.parse bytes platform = .ok l) (hb : b.IsSound)
    (h : ofLayout pixels l = .ok b) : b.IsMeasured := by
  by_cases hformat : l.format = .circular
  · obtain ⟨rows, -, rfl⟩ := ofLayout_circular hformat h
    exact hb.isMeasured rfl fun _ => isPalettized_of_layoutPalette hl
  · cases (ofLayout_fixed hformat).symm.trans h
    exact hb.isMeasured rfl fun _ => isPalettized_of_layoutPalette hl

theorem IsMade.isMeasured (h : IsMade b) : b.IsMeasured := by
  have hb := h.isSound
  cases h with
  | blank h => exact IsFresh.isMeasured (.blank h) hb
  | blankWithPalette h => exact isMeasured_of_blankWithPalette h
  | png h => exact IsFresh.isMeasured (.png h) hb
  | raw h =>
    obtain ⟨l, hl, h⟩ := bind_eq_ok_iff.1 h
    simp only at h
    split at h
    · cases h
    · exact isMeasured_of_ofLayout hl hb h
  | resource h =>
    simp only [ofResource] at h
    split at h
    · cases h
    · split at h
      · exact IsFresh.isMeasured (.png h) hb
      · split at h
        · cases h
        · rename_i raw hraw
          cases h
          obtain ⟨l, hl, hraw⟩ := bind_eq_ok_iff.1 hraw
          simp only at hraw
          split at hraw
          · cases hraw
          · exact isMeasured_of_ofLayout hl hb hraw

/-! ### Operations -/

theorem IsMeasured.setData (hproper : b.bounds.IsProper) {pixels old : PixelSource}
    {format : PixelFormat} {rowSize : UInt16}
    (h : b.setData pixels format rowSize = .ok (b', old)) : b'.IsMeasured := by
  rcases b.setData_cases pixels format rowSize with hok | herror
  · obtain ⟨b₁, hb₁, hpixels, hformat, hbounds, hpalette, hlayout⟩ := hok
    cases hb₁.symm.trans h
    refine ⟨fun offset hoffset => absurd hoffset (hpalette offset), fun hnone => ?_⟩
    rcases hlayout with ⟨hfixed, -, hsize, hwide, hlong⟩ | ⟨rows, -, hrows, -, -⟩
    · right
      rw [hformat, hbounds, hsize, hpixels, Nat.mul_comm]
      exact ⟨bitsPerPixel_mul_le_of_rowStride hproper hfixed hwide, hlong⟩
    · rw [hnone] at hrows
      cases hrows
  · cases herror.symm.trans h

/-- A part reaches no further than the whole, and has all of its storage. -/
theorem IsMeasured.part {part : Bitmap} (hb : b.IsMeasured) (hproper : b.bounds.IsProper)
    (h : IsPart b part) : part.IsMeasured := by
  have hview := h.isViewOf hproper
  obtain ⟨⟨-, hmaxX⟩, -, hmaxY⟩ := (Rect.contains_iff hview.proper).1 hview.inside
  have hstop : 0 ≤ part.bounds.maxY := hview.proper.rows.stop_nonneg
  have hshared : part.pixels.toBytes = b.pixels.toBytes
      ∧ ∀ offset, part.palette = .trailing offset → b.palette = .trailing offset := by
    cases h with
    | readOnly h =>
      obtain ⟨bounds, -, rfl⟩ := Option.map_eq_some_iff.1 h
      exact ⟨rfl, fun _ => PaletteSource.lend_eq_trailing_iff.1⟩
    | writable hclip h =>
      rw [writableView?_eq_some h]
      exact ⟨rfl, fun _ => PaletteSource.lend_eq_trailing_iff.1⟩
  obtain ⟨hpixels, hpalette⟩ := hshared
  refine ⟨fun offset hoffset => ?_, fun hrows => ?_⟩
  · rw [hview.format]
    exact hb.palettized offset (hpalette offset hoffset)
  · rw [hview.format, hview.rowSize, hpixels]
    rcases hb.reaches (hview.rows.symm.trans hrows) with hempty | ⟨hwide, hlong⟩
    · left
      omega
    · have hcolumns : (b.format.bitsPerPixel : Int) * part.bounds.maxX
          ≤ b.format.bitsPerPixel * b.bounds.maxX :=
        Int.mul_le_mul_of_nonneg_left hmaxX (Int.natCast_nonneg _)
      have hcount : part.bounds.maxY.toNat ≤ b.bounds.maxY.toNat := Int.toNat_le_toNat hmaxY
      exact Or.inr ⟨Int.le_trans hcolumns hwide,
        Nat.le_trans (Nat.mul_le_mul_right _ hcount) hlong⟩

theorem IsMeasured.step {h h' : HeldBitmap} (hb : h.bitmap.IsMeasured)
    (hproper : h.bitmap.bounds.IsProper) (step : h.Step h') : h'.bitmap.IsMeasured := by
  cases step with
  | stay => exact hb
  | write pixels hlength =>
    refine ⟨hb.palettized, fun hrows => ?_⟩
    show h.bitmap.bounds.maxY = 0 ∨ _ ∧ _ ≤ pixels.toBytes.length
    rw [hlength]
    exact hb.reaches hrows
  | setPalette palette => exact ⟨fun offset hoffset => (nomatch hoffset), hb.reaches⟩
  | setBounds bounds hbounds hmaxX hmaxY =>
    exact ⟨hb.palettized, fun hrows => Or.inr
      ⟨bitsPerPixel_mul_le_of_storageSize hrows hmaxX, maxY_mul_le_of_storageSize hrows hmaxY⟩⟩
  | setData hset => exact IsMeasured.setData hproper hset

theorem isMeasured_paletteForm (hproper : b.bounds.IsProper) : b.paletteForm.IsMeasured := by
  refine ⟨fun offset hoffset => (nomatch hoffset), fun _ => Or.inr ⟨?_, ?_⟩⟩
  · have hright : 0 ≤ b.bounds.maxX := hproper.columns.stop_nonneg
    have hrows : PixelFormat.palette1 ≠ .circular := by decide
    have hstride := PixelFormat.bitsPerPixel_mul_le hrows b.bounds.maxX.toNat
    rw [toNat_rowSize_paletteForm hproper]
    show (PixelFormat.palette1.bitsPerPixel : Int) * b.bounds.maxX ≤ _
    rw [← Int.toNat_of_nonneg hright]
    exact_mod_cast hstride
  · rw [toNat_rowSize_paletteForm hproper, Nat.mul_comm]
    exact Nat.le_of_eq (length_data_paletteForm b).symm

theorem Reachable.isMeasured (hb : b.Reachable) : b.IsMeasured := by
  induction hb with
  | made h => exact h.isMeasured
  | palettized hs h ih =>
    rw [toPalettized_eq_ok hs.wellFormed.proper h]
    exact isMeasured_paletteForm hs.wellFormed.proper
  | part hb h ih => exact ih.part hb.wellFormed.proper h
  | run hb a displaced ih => exact ih.step hb.wellFormed.proper (a.step_run ⟨_, displaced⟩)
  | setData hb h ih => exact IsMeasured.setData hb.wellFormed.proper h

end DialGraphics.Bitmap
