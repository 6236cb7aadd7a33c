import DialGraphics.Bitmap.OfResource
import DialGraphics.Proofs.Bitmap.Sound

/-!
# Raw files

A raw file whose header is accepted, and that is as long as the header says, has all rows of the
bitmap. A resource keeps its pixels when its header is taken off.
-/

namespace DialGraphics

theorem PixelFormat.paletteSize_circular : paletteSize .circular = 0 := rfl

namespace RawLayout

theorem toInt_ofNat_of_le {n : Nat} (h : n ≤ maxSide) : (Int16.ofNat n).toInt = n := by
  unfold maxSide at h
  exact Int16.toInt_ofNat_of_lt (by omega)

theorem size?_eq_some {width height : Nat} {size : Size} (h : size? width height = some size) :
    size.w.toInt = width ∧ size.h.toInt = height := by
  rw [size?] at h
  split at h
  · cases h
  · rename_i hsides
    cases h
    exact ⟨toInt_ofNat_of_le (by omega), toInt_ofNat_of_le (by omega)⟩

theorem isNegative_of_size? {width height : Nat} {size : Size}
    (h : size? width height = some size) : size.isNegative = false := by
  obtain ⟨hw, hh⟩ := size?_eq_some h
  rw [Size.isNegative_eq_false_iff, hw, hh]
  exact ⟨Int.natCast_nonneg _, Int.natCast_nonneg _⟩

theorem parse_eq_ok {bytes : Bytes} {platform : Platform} {l : RawLayout}
    (h : parse bytes platform = .ok l) :
    l.size.isNegative = false ∧ l.paletteLength = l.format.paletteSize
      ∧ pixelLength? l.format l.rowSize.toNat l.size = .ok l.pixelLength := by
  obtain ⟨⟨rowSize, flags, width, height⟩, -, h⟩ := bind_eq_ok_iff.1 h
  obtain ⟨format, -, h⟩ := bind_eq_ok_iff.1 h
  simp only at h
  split at h
  · cases h
  · obtain ⟨size, hsize, h⟩ := bind_eq_ok_iff.1 h
    obtain ⟨pixelLength, hlength, h⟩ := bind_eq_ok_iff.1 h
    cases h
    exact ⟨isNegative_of_size? (orFail_eq_ok_iff.1 hsize), rfl, hlength⟩

theorem pixelLength?_fixed {format : PixelFormat} {rowSize n : Nat} {size : Size}
    (hformat : format ≠ .circular) (h : pixelLength? format rowSize size = .ok n) :
    format.bitsPerPixel * size.w.toInt.toNat ≤ rowSize * 8 ∧ n = rowSize * size.h.toInt.toNat := by
  unfold pixelLength? at h
  split at h
  · exact absurd rfl hformat
  · split at h
    · cases h
    · rename_i hwide
      split at h
      · cases h
      · cases h
        exact ⟨Nat.le_of_not_lt hwide, rfl⟩

theorem pixelLength?_circular {rowSize n : Nat} {size : Size}
    (h : pixelLength? .circular rowSize size = .ok n) :
    ∃ rows, CircularRow.table size = .ok rows ∧ CircularRow.storedSize rows = n := by
  simp only [pixelLength?] at h
  split at h
  · cases h
  · exact map_eq_ok_iff.1 h

end RawLayout

namespace Bitmap

/-! ### Raw layouts -/

def layoutPalette (l : RawLayout) : PaletteSource :=
  if 0 < l.paletteLength then .trailing l.pixelLength else .absent

theorem ofLayout_fixed {pixels : PixelSource} {l : RawLayout} (hformat : l.format ≠ .circular) :
    ofLayout pixels l
      = .ok ⟨pixels, layoutPalette l, l.rowSize, l.format, l.version, .ofSize l.size, none⟩ := by
  cases hl : l.format with
  | circular => exact absurd hl hformat
  | _ =>
    simp only [ofLayout, hl]
    rfl

theorem ofLayout_circular {pixels : PixelSource} {l : RawLayout} {b : Bitmap}
    (hformat : l.format = .circular) (h : ofLayout pixels l = .ok b) :
    ∃ rows, CircularRow.table l.size = .ok rows
      ∧ b = ⟨pixels, layoutPalette l, l.rowSize, l.format, l.version, .ofSize l.size,
        some rows⟩ := by
  simp only [ofLayout, hformat] at h
  obtain ⟨t, ht, h⟩ := bind_eq_ok_iff.1 h
  obtain ⟨rows, hrows, rfl⟩ := map_eq_ok_iff.1 ht
  cases h
  exact ⟨rows, hrows, by rw [hformat]; rfl⟩

theorem isSound_of_ofLayout {bytes : Bytes} {platform : Platform} {pixels : PixelSource}
    {l : RawLayout} {b : Bitmap} (hl : RawLayout.parse bytes platform = .ok l)
    (hlong : l.pixelLength + l.paletteLength ≤ pixels.toBytes.length)
    (h : ofLayout pixels l = .ok b) : b.IsSound := by
  obtain ⟨hsize, hpalette, hlength⟩ := RawLayout.parse_eq_ok hl
  by_cases hformat : l.format = .circular
  · obtain ⟨rows, hrows, rfl⟩ := ofLayout_circular hformat h
    rw [hformat] at hpalette hlength
    obtain ⟨rows', hrows', hstored⟩ := RawLayout.pixelLength?_circular hlength
    cases hrows'.symm.trans hrows
    refine isSound_of_table hrows rfl rfl hformat ?_ ?_
    · show CircularRow.storedSize rows ≤ pixels.toBytes.length
      omega
    · intro offset hoffset
      rw [layoutPalette, hpalette, PixelFormat.paletteSize_circular, if_neg (Nat.lt_irrefl 0)]
        at hoffset
      cases hoffset
  · cases (ofLayout_fixed hformat).symm.trans h
    obtain ⟨hwide, hcount⟩ := RawLayout.pixelLength?_fixed hformat hlength
    have hproper := Rect.isProper_ofSize hsize
    have hw := hproper.columns.length_nonneg
    have hmaxX := Rect.maxX_ofSize l.size
    have hmaxY := Rect.maxY_ofSize l.size
    refine isSound_of_fixed hproper rfl hformat ?_ ?_
    · show (l.format.bitsPerPixel : Int) * (Rect.ofSize l.size).maxX ≤ 8 * l.rowSize.toNat
      have hwidth : (l.size.w.toInt.toNat : Int) = l.size.w.toInt := Int.toNat_of_nonneg hw
      rw [hmaxX, ← hwidth, Int.mul_comm 8]
      exact_mod_cast hwide
    · show (Rect.ofSize l.size).maxY.toNat * l.rowSize.toNat ≤ _
      rw [hmaxY, Nat.mul_comm, ← hcount]
      simp only [data, layoutPalette]
      split
      · rename_i offset hoffset
        split at hoffset
        · cases hoffset
          rw [List.length_take]
          omega
        · cases hoffset
      · omega

/-! ### Raw files and resources -/

theorem isSound_of_ofRaw {bytes : Bytes} {platform : Platform} {b : Bitmap}
    (h : ofRaw bytes platform = .ok b) : b.IsSound := by
  obtain ⟨l, hl, h⟩ := bind_eq_ok_iff.1 h
  simp only at h
  split at h
  · cases h
  · rename_i hlong
    unfold RawLayout.totalLength at hlong
    refine isSound_of_ofLayout hl ?_ h
    show _ ≤ (bytes.drop RawLayout.headerSize).length
    rw [List.length_drop]
    omega

theorem length_pixelsOfRaw (r : ResourceBytes) :
    (pixelsOfRaw r).toBytes.length = r.toBytes.length - RawLayout.headerSize := by
  cases r with
  | mapped key bytes => exact List.length_drop
  | heap copy =>
    have halign : ∀ c : HeapBytes, (c.align pixelAlignment).2.length = c.length := by
      intro c
      simp only [HeapBytes.align]
      split
      · split
        · rfl
        · rfl
      · rfl
    show ((copy.advance RawLayout.headerSize).align pixelAlignment).2.toBytes.length = _
    rw [HeapBytes.length_toBytes, halign]
    show copy.length - min RawLayout.headerSize copy.length = copy.toBytes.length - _
    rw [HeapBytes.length_toBytes]
    omega

theorem isSound_of_ofRawResource {r : ResourceBytes} {platform : Platform} {b : Bitmap}
    (h : ofRawResource r platform = .ok b) : b.IsSound := by
  obtain ⟨l, hl, h⟩ := bind_eq_ok_iff.1 h
  simp only at h
  split at h
  · cases h
  · rename_i hlong
    unfold RawLayout.totalLength at hlong
    refine isSound_of_ofLayout hl ?_ h
    show _ ≤ (pixelsOfRaw r).toBytes.length
    rw [length_pixelsOfRaw]
    omega

end Bitmap

end DialGraphics
