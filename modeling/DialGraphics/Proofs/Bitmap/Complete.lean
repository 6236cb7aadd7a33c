import DialGraphics.Proofs.Bitmap.Measured
import DialGraphics.Proofs.Bitmap.RawRoundTrip

/-!
# Complete bitmaps

Whichever way a bitmap is made, all that its size asks for is stored at first, and its palette, if
it has one, has an entry for each value that a pixel can have.
-/

namespace DialGraphics

/-- A palette with an entry for each pixel value of a format that has palettes. -/
def Palette.Covers (p : Palette) (format : PixelFormat) : Prop :=
  format.isPalettized = true ∧ format.paletteSize ≤ p.colors.length

instance (p : Palette) (format : PixelFormat) : Decidable (p.Covers format) :=
  inferInstanceAs (Decidable (_ ∧ _))

namespace Bitmap

open RawLayout (HasHeader HasRows ofHeader storedLength)

/-- All entries of a palette behind the pixels are there, and the format has palettes. -/
def BacksPalette (b : Bitmap) : Prop :=
  ∀ offset, b.palette = .trailing offset → b.format.isPalettized = true
    ∧ offset + b.format.paletteSize ≤ b.pixels.toBytes.length

/-- A palette that was given to the bitmap covers its format. -/
def CoversGiven (b : Bitmap) : Prop := ∀ p, b.palette = .given p → p.Covers b.format

/-- A bitmap from the first row to the last, with nothing missing from the rows or the palette. -/
structure IsComplete (size : Size) (b : Bitmap) : Prop where
  nonneg : size.isNegative = false
  bounds : b.bounds = .ofSize size
  rows : rowsFor b.format size = .ok b.rows
  hasRows : HasRows b.format b.rowSize.toNat size.w.toInt.toNat size.h.toInt.toNat
  stored : storedLength b.format b.rowSize.toNat size.w.toInt.toNat size.h.toInt.toNat
    ≤ b.pixels.toBytes.length
  backs : b.BacksPalette
  covers : b.CoversGiven

variable {size : Size} {format : PixelFormat} {b : Bitmap}

/-! ### In memory -/

theorem IsFilled.isComplete (hb : IsFilled size format b) : b.IsComplete size := by
  have hformat := hb.format_eq
  obtain ⟨bytes, howned, hlength⟩ := hb.pixels
  refine ⟨hb.nonneg, hb.bounds, ?_, ?_, ?_, ?_, ?_⟩
  · rw [hformat]
    exact hb.rows
  · rw [hformat]
    exact hb.hasRows
  · rw [hformat, howned]
    exact Nat.le_of_eq hlength.symm
  · exact fun offset hoffset => absurd hoffset (hb.colors.ne_trailing offset)
  · intro p hp
    have hcolors := hb.colors
    rw [hp] at hcolors
    cases p with
    | owned colors =>
      rw [hformat]
      exact ⟨hcolors.1, Nat.le_of_eq hcolors.2.symm⟩
    | borrowed colors => exact hcolors.elim

theorem isComplete_of_blankWithPalette {palette : Palette} {platform : Platform}
    (h : blankWithPalette size format palette platform = .ok b) : b.IsComplete size := by
  simp only [blankWithPalette] at h
  split at h
  · rename_i hgood
    obtain ⟨hpalettized, hcount, hsupported⟩ := hgood
    obtain ⟨zeros, hzeros, rfl⟩ := map_eq_ok_iff.1 h
    have hshape := hasShape_of_allocateBlank hzeros
    have hformat := hshape.format_eq
    obtain ⟨bytes, howned, hlength⟩ := owned_of_allocateBlank hzeros
    refine ⟨isNegative_of_isSupported hsupported, hshape.bounds, ?_, ?_, ?_, ?_, ?_⟩
    · show rowsFor zeros.format size = .ok zeros.rows
      rw [hformat]
      exact hshape.rows
    · show HasRows zeros.format _ _ _
      rw [hformat]
      exact hshape.hasRows
    · show storedLength zeros.format zeros.rowSize.toNat _ _ ≤ zeros.pixels.toBytes.length
      rw [hformat, howned]
      exact Nat.le_of_eq hlength.symm
    · intro offset hoffset
      cases hoffset
    · intro p hp
      cases hp
      show palette.Covers zeros.format
      rw [hformat]
      exact ⟨hpalettized, hcount⟩
  · cases h

/-! ### From raw files -/

theorem isComplete_of_ofLayout {bytes : Bytes} {platform : Platform} {pixels : PixelSource}
    {l : RawLayout} (hl : RawLayout.parse bytes platform = .ok l)
    (hlong : l.pixelLength + l.paletteLength ≤ pixels.toBytes.length)
    (h : ofLayout pixels l = .ok b) : b.IsComplete l.size := by
  obtain ⟨hnonneg, -, -⟩ := RawLayout.parse_eq_ok hl
  obtain ⟨format, hheader, rfl⟩ := RawLayout.parse_eq_ok_iff.1 hl
  rw [ofLayout_eq] at h
  obtain ⟨rows, hrows, rfl⟩ := map_eq_ok_iff.1 h
  have hsize := RawLayout.size?_eq_some_iff.2 ⟨⟨hheader.width_le, hheader.height_le⟩, rfl⟩
  obtain ⟨hw, hh⟩ := RawLayout.size?_eq_some hsize
  have hwidth : (ofHeader bytes format).size.w.toInt.toNat = (bytes.wordAt 8).toNat := by
    rw [show (ofHeader bytes format).size.w.toInt = _ from hw, Int.toNat_natCast]
  have hheight : (ofHeader bytes format).size.h.toInt.toNat = (bytes.wordAt 10).toNat := by
    rw [show (ofHeader bytes format).size.h.toInt = _ from hh, Int.toNat_natCast]
  have hpixels : (ofHeader bytes format).pixelLength
      = storedLength format (bytes.wordAt 0).toNat (bytes.wordAt 8).toNat
        (bytes.wordAt 10).toNat := rfl
  have hpalette : (ofHeader bytes format).paletteLength = format.paletteSize := rfl
  refine ⟨hnonneg, rfl, hrows, ?_, ?_, ?_, ?_⟩
  · rw [hwidth, hheight]
    exact hheader.rows
  · rw [hwidth, hheight]
    show storedLength format (bytes.wordAt 0).toNat _ _ ≤ pixels.toBytes.length
    omega
  · intro offset hoffset
    have hoffset : layoutPalette (ofHeader bytes format) = .trailing offset := hoffset
    refine ⟨isPalettized_of_layoutPalette hl hoffset, ?_⟩
    unfold layoutPalette at hoffset
    split at hoffset
    · cases hoffset
      show (ofHeader bytes format).pixelLength + format.paletteSize ≤ pixels.toBytes.length
      omega
    · cases hoffset
  · intro p hp
    have hp : layoutPalette (ofHeader bytes format) = .given p := hp
    unfold layoutPalette at hp
    split at hp <;> cases hp

theorem isComplete_of_ofRaw {bytes : Bytes} {platform : Platform}
    (h : ofRaw bytes platform = .ok b) : ∃ size, b.IsComplete size := by
  rw [ofRaw_eq] at h
  obtain ⟨l, hl, h⟩ := bind_eq_ok_iff.1 h
  split at h
  · cases h
  · rename_i hlong
    unfold RawLayout.totalLength at hlong
    refine ⟨l.size, isComplete_of_ofLayout hl ?_ h⟩
    show _ ≤ (bytes.drop RawLayout.headerSize).length
    rw [List.length_drop]
    omega

theorem isComplete_of_ofRawResource {r : ResourceBytes} {platform : Platform}
    (h : ofRawResource r platform = .ok b) : ∃ size, b.IsComplete size := by
  rw [ofRawResource_eq] at h
  obtain ⟨l, hl, h⟩ := bind_eq_ok_iff.1 h
  split at h
  · rename_i hlong
    unfold RawLayout.totalLength at hlong
    refine ⟨l.size, isComplete_of_ofLayout hl ?_ h⟩
    show _ ≤ (pixelsOfRaw r).toBytes.length
    rw [length_pixelsOfRaw]
    omega
  · cases h

/-! ### However made -/

theorem IsFresh.exists_isComplete (h : IsFresh b) : ∃ size, b.IsComplete size := by
  obtain ⟨size, format, hfilled⟩ := h.exists_isFilled
  exact ⟨size, hfilled.isComplete⟩

theorem IsMade.exists_isComplete (h : IsMade b) : ∃ size, b.IsComplete size := by
  cases h with
  | blank h => exact IsFresh.exists_isComplete (.blank h)
  | blankWithPalette h => exact ⟨_, isComplete_of_blankWithPalette h⟩
  | png h => exact IsFresh.exists_isComplete (.png h)
  | raw h => exact isComplete_of_ofRaw h
  | resource h =>
    rw [ofResource_eq] at h
    obtain ⟨r, -, h⟩ := bind_eq_ok_iff.1 h
    split at h
    · exact IsFresh.exists_isComplete (.png h)
    · exact isComplete_of_ofRawResource h

end Bitmap

end DialGraphics
