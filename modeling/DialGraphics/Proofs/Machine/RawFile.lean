import DialGraphics.Machine.RawBitmap
import DialGraphics.Proofs.Bitmap.Acceptance
import DialGraphics.Proofs.Bitmap.Blank
import DialGraphics.Proofs.Machine.CircularTable

/-!
# Raw bitmaps fit the machine

Whatever the bytes are, reading a raw file never stops the machine: sides are 15-bit numbers and row
sizes 16-bit ones, so every length is below two to the power 33. The same goes for blank storage.
-/

namespace DialGraphics.Machine

/-! ### Storage -/

theorem rowStride_eq (format : PixelFormat) {width : Nat} (hwidth : width < 65536) :
    rowStride format width = .ok (UInt16.ofNat (format.rowStride width)) := by
  cases format with
  | mono =>
    simp only [rowStride, PixelFormat.rowStride]
    rw [add_eq (by omega), ok_bind, mul_eq (by omega), ok_bind]
  | color => rfl
  | circular => rfl
  | _ =>
    simp only [rowStride, PixelFormat.rowStride, PixelFormat.bitsPerPixel]
    rw [mul_eq (by omega), ok_bind, add_eq (by omega), ok_bind]

theorem paletteSize_eq (format : PixelFormat) : paletteSize format = .ok format.paletteSize := by
  cases format <;> rfl

theorem mul_side_eq {rowSize : Nat} (hrow : rowSize < 65536) (side : Int16) :
    mul 64 rowSize side.toInt.toNat = .ok (rowSize * side.toInt.toNat) := by
  have hside := side.toInt_lt
  have hproduct : rowSize * side.toInt.toNat ≤ 65536 * 32768 :=
    Nat.mul_le_mul (Nat.le_of_lt hrow) (by omega)
  exact mul_eq (by omega)

theorem allocateBlank_eq (size : Size) (format : PixelFormat) :
    allocateBlank size format = settled (Bitmap.allocateBlank size format) := by
  have hwidth : size.w.toInt.toNat < 32768 := by
    have := size.w.toInt_lt
    omega
  have hstride : (UInt16.ofNat (format.rowStride size.w.toInt.toNat)).toNat
      = format.rowStride size.w.toInt.toNat := by
    rw [UInt16.toNat_ofNat']
    exact Nat.mod_eq_of_lt (format.rowStride_lt hwidth)
  unfold allocateBlank Bitmap.allocateBlank
  split
  · rw [table_eq]
    cases htable : CircularRow.table size with
    | error e => rfl
    | ok rows =>
      rw [settled_ok_bind, storedSize_eq htable, lift_ok, settled_ok_bind]
      simp only [bind, Except.bind]
      cases allocate (CircularRow.storedSize rows) with
      | error e => rfl
      | ok bytes => rfl
  · rw [rowStride_eq format (by omega), lift_ok, settled_ok_bind, mul_side_eq (UInt16.toNat_lt _),
      lift_ok, settled_ok_bind, hstride]
    simp only [bind, Except.bind]
    cases allocate (format.rowStride size.w.toInt.toNat * size.h.toInt.toNat) with
    | error e => rfl
    | ok bytes => rfl

/-! ### Raw files -/

theorem pixelLength_eq (format : PixelFormat) {rowSize : Nat} (hrow : rowSize < 65536)
    {size : Size} (hsize : size.isNegative = false) :
    pixelLength format rowSize size = settled (RawLayout.pixelLength? format rowSize size) := by
  obtain ⟨hw, hh⟩ := Size.isNegative_eq_false_iff.1 hsize
  have hwide := size.w.toInt_lt
  have htall := size.h.toInt_lt
  have hwidth : toUnsigned 64 size.w.toInt = size.w.toInt.toNat :=
    toUnsigned_eq hw (by omega)
  have hheight : toUnsigned 64 size.h.toInt = size.h.toInt.toNat :=
    toUnsigned_eq hh (by omega)
  have hneeded : mul 64 format.bitsPerPixel size.w.toInt.toNat
      = .ok (format.bitsPerPixel * size.w.toInt.toNat) := by
    apply mul_eq
    cases format <;> simp only [PixelFormat.bitsPerPixel] <;> omega
  cases format with
  | circular =>
    simp only [pixelLength, RawLayout.pixelLength?]
    split
    · rfl
    · rw [table_eq]
      cases htable : CircularRow.table size with
      | error e => rfl
      | ok rows =>
        rw [settled_ok_bind, storedSize_eq htable]
        rfl
  | _ =>
    simp only [pixelLength, RawLayout.pixelLength?]
    rw [hwidth, hheight, hneeded, lift_ok, settled_ok_bind, mul_eq (by omega), lift_ok,
      settled_ok_bind, mul_side_eq hrow]
    split
    · rfl
    · split
      · rfl
      · rfl

theorem fields?_take (bytes : Bytes) :
    ((Bytes.splitAt? RawLayout.headerSize bytes).bind fun p => RawLayout.fields? p.1)
      = RawLayout.fields? bytes := by
  have hlength : ∀ part : Bytes, part = bytes.take 12 → 12 ≤ bytes.length → 12 ≤ part.length := by
    rintro part rfl hlong
    rw [List.length_take]
    omega
  rw [Bytes.splitAt?_eq, RawLayout.fields?_eq]
  show (if 12 ≤ bytes.length then some (bytes.take 12, bytes.drop 12) else none).bind _ = _
  rw [guarded_bind]
  split
  · rename_i hlong
    rw [RawLayout.fields?_eq, if_pos (hlength _ rfl hlong), Bytes.wordAt_take (by omega),
      Bytes.wordAt_take (by omega), Bytes.wordAt_take (by omega), Bytes.wordAt_take (by omega)]
  · rfl

theorem parse_eq (bytes : Bytes) (platform : Platform) :
    parse bytes platform = settled (RawLayout.parse bytes platform) := by
  unfold parse RawLayout.parse
  rw [pull?_eq, lift_ok, settled_ok_bind, fields?_take]
  cases RawLayout.fields? bytes with
  | none => rfl
  | some fields =>
    obtain ⟨rowSize, flags, width, height⟩ := fields
    have hkind : flags.toNat >>> 1 = flags.toNat / 2 := Nat.shiftRight_eq_div_pow ..
    have hversion : flags.toNat >>> 12 = flags.toNat / 4096 := Nat.shiftRight_eq_div_pow ..
    simp only [orFail_some, settled_ok_bind]
    rw [shiftRight_eq (by decide), lift_ok, settled_ok_bind, hkind]
    show _ = settled ((orFail DecodeError.malformed (RawLayout.formatOfFlags? flags)).bind _)
    rw [settled_bind]
    unfold RawLayout.formatOfFlags?
    cases PixelFormat.ofNumber? (flags.toNat / 2 % 8) with
    | none => rfl
    | some format =>
      simp only [orFail_some, settled_ok_bind]
      split
      · rfl
      · show _ = settled ((orFail DecodeError.malformed
          (RawLayout.size? width.toNat height.toNat)).bind _)
        rw [settled_bind]
        cases hsize : RawLayout.size? width.toNat height.toNat with
        | none => rfl
        | some size =>
          simp only [orFail_some, settled_ok_bind]
          rw [pixelLength_eq format rowSize.toNat_lt (RawLayout.isNegative_of_size? hsize)]
          cases RawLayout.pixelLength? format rowSize.toNat size with
          | error e => rfl
          | ok n =>
            rw [settled_ok_bind, shiftRight_eq (by decide), lift_ok, settled_ok_bind, hversion,
              paletteSize_eq]
            rfl

/-- A checked layout describes fewer bytes than a machine can address. -/
theorem totalLength_eq {bytes : Bytes} {platform : Platform} {l : RawLayout}
    (h : RawLayout.parse bytes platform = .ok l) : totalLength l = .ok l.totalLength := by
  obtain ⟨format, hheader, rfl⟩ := RawLayout.parse_eq_ok_iff.1 h
  have hpixels : (RawLayout.ofHeader bytes format).pixelLength ≤ 65536 * 32767 :=
    RawLayout.storedLength_le format (UInt16.toNat_lt _) hheader.width_le hheader.height_le
  have hpalette : (RawLayout.ofHeader bytes format).paletteLength ≤ 16 :=
    format.paletteSize_le
  unfold totalLength RawLayout.totalLength RawLayout.headerSize
  rw [add_eq (by omega), ok_bind, add_eq (by omega)]

theorem ofLayout_eq (pixels : PixelSource) (l : RawLayout) :
    ofLayout pixels l = settled (Bitmap.ofLayout pixels l) := by
  unfold ofLayout Bitmap.ofLayout
  cases l.format with
  | circular =>
    simp only
    rw [table_eq]
    cases CircularRow.table l.size with
    | error e => rfl
    | ok rows => rfl
  | _ => rfl

theorem ofRaw_eq (bytes : Bytes) (platform : Platform) :
    ofRaw bytes platform = settled (Bitmap.ofRaw bytes platform) := by
  unfold ofRaw Bitmap.ofRaw
  rw [parse_eq]
  cases hl : RawLayout.parse bytes platform with
  | error e => rfl
  | ok l =>
    rw [settled_ok_bind, totalLength_eq hl, lift_ok, settled_ok_bind]
    simp only [bind, Except.bind]
    split
    · rfl
    · rename_i hlong
      have hheader : RawLayout.headerSize ≤ bytes.length := by
        unfold RawLayout.totalLength at hlong
        omega
      rw [sliceFrom_eq hheader]
      exact ofLayout_eq _ l

end DialGraphics.Machine
