import DialGraphics.Bitmap.Create
import DialGraphics.Proofs.Bitmap.Sound

/-!
# Blank bitmaps

A blank bitmap has room for all its rows, and so has one that is made of it with other rows of the
same length. Palette forms are made that way.
-/

namespace DialGraphics

namespace PixelFormat

theorem bitsPerPixel_mul_le {f : PixelFormat} (hf : f ≠ .circular) (width : Nat) :
    f.bitsPerPixel * width ≤ 8 * f.rowStride width := by
  cases f with
  | circular => exact absurd rfl hf
  | _ =>
    simp only [rowStride, bitsPerPixel]
    omega

theorem rowStride_lt (f : PixelFormat) {width : Nat} (hwidth : width < 32768) :
    f.rowStride width < 65536 := by
  cases f <;> simp only [rowStride, bitsPerPixel] <;> omega

/-- So few bytes can always be had. -/
theorem rowStride_mul_lt (f : PixelFormat) {width height : Nat} (hwidth : width < 32768)
    (hheight : height < 32768) : f.rowStride width * height < allocationLimit := by
  have := Nat.mul_le_mul (Nat.le_of_lt (f.rowStride_lt hwidth)) (Nat.le_of_lt hheight)
  unfold allocationLimit
  omega

end PixelFormat

theorem length_of_allocate {n : Nat} {bytes : Bytes} (h : allocate n = .ok bytes) :
    bytes.length = n := by
  rw [allocate] at h
  split at h
  · cases h
  · cases h
    exact List.length_replicate

namespace Bitmap

/-! ### Zero pixels -/

/-- Blank storage with rows of one length is never too large. -/
theorem allocateBlank_eq (size : Size) {format : PixelFormat} (hformat : format ≠ .circular) :
    allocateBlank size format
      = .ok ⟨.owned (List.replicate (format.rowStride size.w.toInt.toNat * size.h.toInt.toNat) 0),
          .absent, UInt16.ofNat (format.rowStride size.w.toInt.toNat), format, 1, .ofSize size,
          none⟩ := by
  have hwidth := size.w.toInt_lt
  have hheight := size.h.toInt_lt
  have hroom : format.rowStride size.w.toInt.toNat * size.h.toInt.toNat < allocationLimit :=
    format.rowStride_mul_lt (by omega) (by omega)
  unfold allocateBlank
  split
  · exact absurd rfl hformat
  · simp only [allocate, if_neg (Nat.not_le.2 hroom)]
    rfl

theorem allocateBlank_fixed {size : Size} {format : PixelFormat} {b : Bitmap}
    (hformat : format ≠ .circular) (h : allocateBlank size format = .ok b) :
    b.rows = none ∧ b.format = format ∧ b.bounds = .ofSize size ∧ b.palette = .absent
      ∧ b.rowSize.toNat = format.rowStride size.w.toInt.toNat
      ∧ b.pixels.toBytes.length = b.rowSize.toNat * size.h.toInt.toNat := by
  have hwidth := size.w.toInt_lt
  have hstride : (UInt16.ofNat (format.rowStride size.w.toInt.toNat)).toNat
      = format.rowStride size.w.toInt.toNat := by
    rw [UInt16.toNat_ofNat']
    exact Nat.mod_eq_of_lt (format.rowStride_lt (by omega))
  rw [allocateBlank_eq size hformat] at h
  cases h
  refine ⟨rfl, rfl, rfl, rfl, hstride, ?_⟩
  rw [hstride]
  exact List.length_replicate

theorem allocateBlank_circular {size : Size} {b : Bitmap}
    (h : allocateBlank size .circular = .ok b) : b.IsSound ∧ b.palette = .absent := by
  obtain ⟨rows, hrows, h⟩ := bind_eq_ok_iff.1 h
  obtain ⟨bytes, hbytes, h⟩ := bind_eq_ok_iff.1 h
  cases h
  refine ⟨isSound_of_table hrows rfl rfl rfl ?_ ?_, rfl⟩
  · exact Nat.le_of_eq (length_of_allocate hbytes).symm
  · exact fun _ h => nomatch h

/-- Other pixels, palette and bounds in a blank bitmap keep it sound if there are as many pixel
bytes, the palette is not among them, and the bounds reach no further. -/
theorem isSound_of_allocateBlank {size : Size} {format : PixelFormat} {blank b : Bitmap}
    (hformat : format ≠ .circular) (h : allocateBlank size format = .ok blank)
    (hrows : b.rows = blank.rows) (hsame : b.format = blank.format)
    (hrowSize : b.rowSize = blank.rowSize)
    (hpixels : b.pixels.toBytes.length = blank.rowSize.toNat * size.h.toInt.toNat)
    (hpalette : ∀ offset, b.palette ≠ .trailing offset) (hproper : b.bounds.IsProper)
    (hmaxX : b.bounds.maxX ≤ size.w.toInt) (hmaxY : b.bounds.maxY ≤ size.h.toInt) : b.IsSound := by
  obtain ⟨hnone, hblank, -, -, hstride, -⟩ := allocateBlank_fixed hformat h
  have hb : b.format = format := hsame.trans hblank
  apply isSound_of_fixed hproper (hrows.trans hnone) (by rw [hb]; exact hformat)
  · have hwidth := PixelFormat.bitsPerPixel_mul_le hformat size.w.toInt.toNat
    have hscaled : (format.bitsPerPixel : Int) * b.bounds.maxX
        ≤ format.bitsPerPixel * (size.w.toInt.toNat : Int) :=
      Int.mul_le_mul_of_nonneg_left (by omega) (Int.natCast_nonneg _)
    rw [hb, hrowSize, hstride]
    exact Int.le_trans hscaled (by exact_mod_cast hwidth)
  · rw [data_of_not_trailing hpalette, hpixels, hrowSize, Nat.mul_comm]
    exact Nat.mul_le_mul_left _ (by omega)

theorem isSound_of_allocateBlank_self {size : Size} {format : PixelFormat} {b : Bitmap}
    (hsize : size.isNegative = false) (h : allocateBlank size format = .ok b) : b.IsSound := by
  by_cases hformat : format = .circular
  · rw [hformat] at h
    exact (allocateBlank_circular h).1
  · obtain ⟨-, -, hbounds, hpalette, -, hpixels⟩ := allocateBlank_fixed hformat h
    have hmaxX := Rect.maxX_ofSize size
    have hmaxY := Rect.maxY_ofSize size
    refine isSound_of_allocateBlank hformat h rfl rfl rfl hpixels ?_ ?_ ?_ ?_
    · rw [hpalette]
      exact fun _ h => nomatch h
    · rw [hbounds]
      exact Rect.isProper_ofSize hsize
    · rw [hbounds]
      omega
    · rw [hbounds]
      omega

theorem isNegative_of_isSupported {platform : Platform} {size : Size} {format : PixelFormat}
    (h : isSupported platform size format = true) : size.isNegative = false := by
  simp only [isSupported, Bool.and_eq_true, Bool.not_eq_true'] at h
  exact h.1.1

theorem isSound_of_blank {size : Size} {format : PixelFormat} {platform : Platform} {b : Bitmap}
    (h : blank size format platform = .ok b) : b.IsSound := by
  simp only [blank] at h
  split at h
  · rename_i hsupported
    obtain ⟨zeros, hzeros, hb⟩ := map_eq_ok_iff.1 h
    have hsound := isSound_of_allocateBlank_self (isNegative_of_isSupported hsupported) hzeros
    split at hb
    · rw [← hb]
      exact hsound.setPalette _
    · rw [← hb]
      exact hsound
  · cases h

theorem isSound_of_blankWithPalette {size : Size} {format : PixelFormat} {palette : Palette}
    {platform : Platform} {b : Bitmap} (h : blankWithPalette size format palette platform = .ok b) :
    b.IsSound := by
  simp only [blankWithPalette] at h
  split at h
  · rename_i hsupported
    obtain ⟨zeros, hzeros, rfl⟩ := map_eq_ok_iff.1 h
    exact (isSound_of_allocateBlank_self (isNegative_of_isSupported hsupported.2.2)
      hzeros).setPalette palette
  · cases h

theorem absent_of_allocateBlank {size : Size} {format : PixelFormat} {b : Bitmap}
    (h : allocateBlank size format = .ok b) : b.palette = .absent := by
  by_cases hformat : format = .circular
  · rw [hformat] at h
    exact (allocateBlank_circular h).2
  · exact (allocateBlank_fixed hformat h).2.2.2.1

/-! ### Other rows -/

theorem isSound_of_newRows {size : Size} {format : PixelFormat} {zeros b : Bitmap}
    {rows : List Bytes} {f : Bytes → Bytes} (hformat : format ≠ .circular)
    (hsize : size.isNegative = false) (h : allocateBlank size format = .ok zeros)
    (hcount : rows.length = size.h.toInt.toNat)
    (hlength : ∀ row ∈ rows, (f row).length = zeros.rowSize.toNat)
    (hpalette : ∀ offset, b.palette ≠ .trailing offset)
    (hb : b = { zeros with pixels := .owned (rows.map f).flatten, palette := b.palette }) :
    b.IsSound := by
  obtain ⟨-, -, hbounds, -, -, -⟩ := allocateBlank_fixed hformat h
  have hsame : b.bounds = .ofSize size := by
    rw [hb]
    exact hbounds
  have hpixels : b.pixels.toBytes.length = zeros.rowSize.toNat * size.h.toInt.toNat := by
    rw [hb, ← hcount]
    exact Bytes.length_flatten_map hlength
  have hmaxX := Rect.maxX_ofSize size
  have hmaxY := Rect.maxY_ofSize size
  refine isSound_of_allocateBlank hformat h ?_ ?_ ?_ hpixels hpalette ?_ ?_ ?_
  · rw [hb]
  · rw [hb]
  · rw [hb]
  · rw [hsame]
    exact Rect.isProper_ofSize hsize
  · rw [hsame]
    omega
  · rw [hsame]
    omega

/-! ### Palette forms -/

theorem length_reverseRows (source : Bytes) (sourceStride stride count : Nat) :
    (reverseRows source sourceStride stride count).length = stride * count := by
  rw [reverseRows]
  split
  · exact List.length_replicate
  · rw [Bytes.length_flatten_map fun _ _ => Bytes.length_fit .., Bytes.length_groups]

theorem isSound_of_toPalettized {source b : Bitmap} (hproper : source.bounds.IsProper)
    (h : source.toPalettized = .ok b) : b.IsSound := by
  have hmaxX : (source.bounds.union {}).maxX = source.bounds.maxX :=
    Interval.stop_union_zero hproper.columns
  have hmaxY : (source.bounds.union {}).maxY = source.bounds.maxY :=
    Interval.stop_union_zero hproper.rows
  simp only [toPalettized, hmaxX, hmaxY] at h
  split at h
  · split at h
    · cases h
    · obtain ⟨zeros, hzeros, rfl⟩ := map_eq_ok_iff.1 h
      have hw := Interval.toInt_ofInt_of_mem hproper.columns.stop_nonneg hproper.columns.stop_le
      have hh := Interval.toInt_ofInt_of_mem hproper.rows.stop_nonneg hproper.rows.stop_le
      refine isSound_of_allocateBlank (by decide) hzeros rfl rfl rfl ?_ (fun _ h => nomatch h)
        hproper (Int.le_of_eq hw.symm) (Int.le_of_eq hh.symm)
      exact length_reverseRows ..
  · cases h

end Bitmap

end DialGraphics
