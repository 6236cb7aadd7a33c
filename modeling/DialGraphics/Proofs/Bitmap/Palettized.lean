import DialGraphics.Bitmap.PixelAt
import DialGraphics.Proofs.Bitmap.Measured

/-!
# Pixels of palette forms

All pixels up to the far corner of the bounds are stored in a 1-bit bitmap, and its palette form has
the same colour for each of them.
-/

namespace DialGraphics.Bitmap

variable {b : Bitmap}

/-! ### One bit for each pixel -/

/-- The colour that a bit stands for in both 1-bit formats. -/
def bitColor (bit : Bool) : Color := if bit then .white else .black

/-- The pixel at a place is one bit of the byte that its row has for eight columns. -/
theorem valueAt?_of_bit (hrows : b.rows = none) (hbits : b.format.bitsPerPixel = 1)
    (hproper : b.bounds.IsProper) {x y : Nat} (hx : (x : Int) < b.bounds.maxX)
    (hcolumn : x / 8 < b.rowSize.toNat) (hrow : (y + 1) * b.rowSize.toNat ≤ b.data.length)
    {byte : UInt8} (hbyte : b.data[y * b.rowSize.toNat + x / 8]? = some byte) :
    b.valueAt? x y = some (byte.toNat.testBit (b.format.shift (x % 8))).toNat := by
  have hright : b.bounds.maxX ≤ 32767 := hproper.columns.stop_le
  have hmaxX : (x : Int) ≤ Interval.clamp (b.bounds.maxX - 1) (-1) maxCoordinate := by
    unfold Interval.clamp maxCoordinate
    omega
  have hplace : ((b.data.drop (y * b.rowSize.toNat)).take b.rowSize.toNat)[x / 8]?
      = some byte := by
    rw [List.getElem?_take_of_lt hcolumn, List.getElem?_drop, hbyte]
  rw [valueAt?, row?_of_rows_none hrows, if_pos hrow, Option.bind_some]
  simp only
  rw [if_pos ⟨Int.natCast_nonneg x, hmaxX⟩, Int.sub_zero, Int.toNat_natCast, PixelFormat.valueAt?,
    hbits, Nat.div_one, hplace, Option.map_some, Nat.shiftRight_eq_div_pow, Nat.toNat_testBit]

theorem colorAt?_of_mono (hmono : b.format = .mono) {x y : Int} {bit : Bool}
    (h : b.valueAt? x y = some bit.toNat) : b.colorAt? x y = some (bitColor bit) := by
  rw [colorAt?, h, hmono]
  cases bit with
  | false => rfl
  | true => rfl

theorem colorAt?_of_palette1 (hformat : b.format = .palette1)
    (hcolors : b.colors? = some [.black, .white]) {x y : Int} {bit : Bool}
    (h : b.valueAt? x y = some bit.toNat) : b.colorAt? x y = some (bitColor bit) := by
  rw [colorAt?, h, hformat, hcolors]
  cases bit with
  | false => rfl
  | true => rfl

/-! ### The same pixels -/

/-- Up to the far corner of the bounds a 1-bit bitmap has a byte for every eight columns. -/
theorem IsMeasured.reaches_of_mono (hb : b.IsMeasured) (hw : b.WellFormed)
    (hmono : b.format = .mono) {x y : Nat} (hx : (x : Int) < b.bounds.maxX)
    (hy : (y : Int) < b.bounds.maxY) :
    b.rows = none ∧ b.data = b.pixels.toBytes ∧ x / 8 < b.rowSize.toNat
      ∧ (y + 1) * b.rowSize.toNat ≤ b.data.length := by
  have hrows : b.rows = none := by
    rw [← Option.not_isSome_iff_eq_none, hw.isSome_rows, hmono]
    decide
  have hdata : b.data = b.pixels.toBytes := data_of_not_trailing fun offset hoffset => by
    have hpalettized := hb.palettized offset hoffset
    rw [hmono] at hpalettized
    cases hpalettized
  rcases hb.reaches hrows with hempty | ⟨hwide, hlong⟩
  · omega
  · rw [hmono] at hwide
    have hbits : ((PixelFormat.mono.bitsPerPixel : Nat) : Int) * b.bounds.maxX = b.bounds.maxX :=
      Int.one_mul _
    have hcount : y + 1 ≤ b.bounds.maxY.toNat := by omega
    rw [hbits] at hwide
    rw [hdata]
    exact ⟨hrows, rfl, by omega, Nat.le_trans (Nat.mul_le_mul_right _ hcount) hlong⟩

/-- Bit by bit, and pixel by pixel. -/
theorem paletteForm_keeps (hb : b.Reachable) (hmono : b.format = .mono) {x y : Nat}
    (hx : (x : Int) < b.bounds.maxX) (hy : (y : Int) < b.bounds.maxY) :
    ∃ source byte, b.data[y * b.rowSize.toNat + x / 8]? = some source
      ∧ b.paletteForm.data[y * b.paletteForm.rowSize.toNat + x / 8]? = some byte
      ∧ byte.toNat.testBit (7 - x % 8) = source.toNat.testBit (x % 8)
      ∧ b.colorAt? x y = some (bitColor (source.toNat.testBit (x % 8)))
      ∧ b.paletteForm.colorAt? x y = some (bitColor (source.toNat.testBit (x % 8))) := by
  have hproper := hb.wellFormed.proper
  obtain ⟨hrows, hdata, hcolumn, hrow⟩ := hb.isMeasured.reaches_of_mono hb.wellFormed hmono hx hy
  have hstride := toNat_rowSize_paletteForm hproper
  have hcolumn' : x / 8 < b.paletteForm.rowSize.toNat := by
    rw [hstride, PixelFormat.rowStride, PixelFormat.bitsPerPixel]
    omega
  have hcount : y < b.bounds.maxY.toNat := by omega
  have hrow' : (y + 1) * b.paletteForm.rowSize.toNat ≤ b.paletteForm.data.length := by
    rw [length_data_paletteForm, hstride, Nat.mul_comm]
    exact Nat.mul_le_mul_left _ hcount
  have hplace : y * b.rowSize.toNat + x / 8 < b.data.length := by
    rw [Nat.succ_mul] at hrow
    omega
  have hsource := List.getElem?_eq_getElem hplace
  generalize b.data[y * b.rowSize.toNat + x / 8] = source at hsource
  have hbyte : b.paletteForm.data[y * b.paletteForm.rowSize.toNat + x / 8]?
      = some (reverseBits source) := by
    rw [hdata] at hsource
    rw [hstride] at hcolumn' ⊢
    exact getElem?_reverseRows hcount hcolumn' hcolumn hsource
  have hbit := testBit_reverseBits source (Nat.mod_lt x (show 0 < 8 by decide))
  have hvalue := valueAt?_of_bit hrows (by rw [hmono]; rfl) hproper hx hcolumn hrow hsource
  have hvalue' := @valueAt?_of_bit b.paletteForm rfl rfl hproper x y hx hcolumn' hrow' _ hbyte
  have hshift : b.paletteForm.format.shift (x % 8) = 7 - x % 8 := by
    show 8 - 1 * (x % 8 + 1) = _
    omega
  rw [hmono] at hvalue
  rw [hshift, hbit] at hvalue'
  exact ⟨source, _, hsource, hbyte, hbit, colorAt?_of_mono hmono hvalue,
    colorAt?_of_palette1 rfl rfl hvalue'⟩

end DialGraphics.Bitmap
