import DialGraphics.Proofs.Bitmap.Blank

/-!
# Palette forms

A 1-bit bitmap with proper bounds has a palette form. Its rows are those of the bitmap with the bits
of each byte in the opposite order, which keeps every pixel in its column.
-/

namespace DialGraphics.Bitmap

/-! ### Bits in the opposite order -/

/-- Bit `i` of a byte, moved to bit `7 - i`. -/
def oppositeBit (byte : UInt8) (i : Nat) : UInt8 :=
  ((byte >>> UInt8.ofNat i) &&& 1) <<< UInt8.ofNat (7 - i)

theorem toNat_oppositeBit (byte : UInt8) {i : Nat} (hi : i < 8) :
    (oppositeBit byte i).toNat = 2 ^ (7 - i) * (byte.toNat.testBit i).toNat := by
  have hplace : (UInt8.ofNat i).toNat % 8 = i := by
    rw [UInt8.toNat_ofNat']
    omega
  have htarget : (UInt8.ofNat (7 - i)).toNat % 8 = 7 - i := by
    rw [UInt8.toNat_ofNat']
    omega
  have hbit : (byte.toNat >>> i) &&& 1 = (byte.toNat.testBit i).toNat := by
    rw [Nat.and_one_is_mod, Nat.toNat_testBit, Nat.shiftRight_eq_div_pow]
  have hfits : 2 ^ (7 - i) * (byte.toNat.testBit i).toNat < 2 ^ 8 := by
    have hpow : 2 ^ (7 - i) ≤ 2 ^ 7 := Nat.pow_le_pow_right (by decide) (by omega)
    have hle : (byte.toNat.testBit i).toNat ≤ 1 := Bool.toNat_le _
    have := Nat.mul_le_mul hpow hle
    omega
  rw [oppositeBit, UInt8.toNat_shiftLeft, UInt8.toNat_and, UInt8.toNat_shiftRight, hplace, htarget,
    UInt8.toNat_one, hbit, Nat.shiftLeft_eq, Nat.mul_comm]
  exact Nat.mod_eq_of_lt hfits

theorem testBit_oppositeBit (byte : UInt8) {i j : Nat} (hi : i < 8) :
    (oppositeBit byte i).toNat.testBit j = (decide (7 - i = j) && byte.toNat.testBit i) := by
  rw [toNat_oppositeBit byte hi]
  cases byte.toNat.testBit i with
  | false => simp
  | true => simp [Nat.testBit_two_pow]

theorem testBit_foldl_or (f : Nat → UInt8) (places : List Nat) (r : UInt8) (j : Nat) :
    (places.foldl (fun r i => r ||| f i) r).toNat.testBit j
      = (r.toNat.testBit j || places.any fun i => (f i).toNat.testBit j) := by
  induction places generalizing r with
  | nil => rw [List.foldl_nil, List.any_nil, Bool.or_false]
  | cons i places ih =>
    rw [List.foldl_cons, ih, UInt8.toNat_or, Nat.testBit_or, List.any_cons, Bool.or_assoc]

theorem testBit_reverseBits (byte : UInt8) {i : Nat} (hi : i < 8) :
    (reverseBits byte).toNat.testBit (7 - i) = byte.toNat.testBit i := by
  have hfold : reverseBits byte
      = (List.range 8).foldl (fun r i => r ||| oppositeBit byte i) 0 := rfl
  rw [hfold, testBit_foldl_or, UInt8.toNat_zero, Nat.zero_testBit, Bool.false_or, Bool.eq_iff_iff,
    List.any_eq_true]
  constructor
  · rintro ⟨k, hk, hbit⟩
    -- no other bit is moved to the same place
    have hlt := List.mem_range.1 hk
    rw [testBit_oppositeBit byte hlt, Bool.and_eq_true, decide_eq_true_iff] at hbit
    have hsame : k = i := by omega
    rw [← hsame]
    exact hbit.2
  · intro hbit
    refine ⟨i, List.mem_range.2 hi, ?_⟩
    rw [testBit_oppositeBit byte hi, hbit, decide_eq_true rfl]
    rfl

/-! ### Rows -/

/-- A byte of the palette form stands for the byte at the same place in the same row. -/
theorem getElem?_reverseRows {source : Bytes} {sourceStride stride count y k : Nat} {byte : UInt8}
    (hy : y < count) (hk : k < stride) (hsource : k < sourceStride)
    (hbyte : source[y * sourceStride + k]? = some byte) :
    (reverseRows source sourceStride stride count)[y * stride + k]? = some (reverseBits byte) := by
  let form := fun row : Bytes => Bytes.fit stride ((row.take stride).map reverseBits)
  have hrows : ∀ row ∈ (Bytes.groups sourceStride count source).map form, row.length = stride :=
    List.forall_mem_map.2 fun _ _ => Bytes.length_fit ..
  have hrow : ((Bytes.groups sourceStride count source).map form)[y]?
      = some (form ((source.drop (y * sourceStride)).take sourceStride)) := by
    rw [List.getElem?_map, Bytes.getElem?_groups hy]
    rfl
  have hplace : ((source.drop (y * sourceStride)).take sourceStride)[k]? = some byte := by
    rw [List.getElem?_take_of_lt hsource, List.getElem?_drop, hbyte]
  have hform : (form ((source.drop (y * sourceStride)).take sourceStride))[k]?
      = some (reverseBits byte) := by
    have hmapped : ((((source.drop (y * sourceStride)).take sourceStride).take stride).map
        reverseBits)[k]? = some (reverseBits byte) := by
      rw [List.getElem?_map, List.getElem?_take_of_lt hk, hplace]
      rfl
    have hlt := (List.getElem?_eq_some_iff.1 hmapped).1
    show (_ ++ _)[k]? = _
    rw [List.take_of_length_le (by rw [List.length_map, List.length_take]; omega),
      List.getElem?_append_left hlt]
    exact hmapped
  rw [reverseRows, if_neg (by omega), ← hform]
  exact Bytes.getElem?_flatten hrows hrow hk

/-! ### The palette form -/

/-- The palette form of a 1-bit bitmap, from the origin to the far corner of its bounds. -/
def paletteForm (b : Bitmap) : Bitmap where
  pixels := .owned (reverseRows b.pixels.toBytes b.rowSize.toNat
    (PixelFormat.palette1.rowStride b.bounds.maxX.toNat) b.bounds.maxY.toNat)
  palette := .given (.owned [.black, .white])
  rowSize := UInt16.ofNat (PixelFormat.palette1.rowStride b.bounds.maxX.toNat)
  format := .palette1
  version := 1
  bounds := b.bounds
  rows := none

variable {b : Bitmap}

theorem toNat_maxX_lt (hproper : b.bounds.IsProper) : b.bounds.maxX.toNat < 32768 := by
  have hmax : b.bounds.maxX ≤ 32767 := hproper.columns.stop_le
  omega

theorem toNat_rowSize_paletteForm (hproper : b.bounds.IsProper) :
    b.paletteForm.rowSize.toNat = PixelFormat.palette1.rowStride b.bounds.maxX.toNat := by
  have hstride := PixelFormat.palette1.rowStride_lt (toNat_maxX_lt hproper)
  show (UInt16.ofNat _).toNat = _
  rw [UInt16.toNat_ofNat']
  exact Nat.mod_eq_of_lt hstride

@[simp] theorem length_data_paletteForm (b : Bitmap) :
    b.paletteForm.data.length
      = PixelFormat.palette1.rowStride b.bounds.maxX.toNat * b.bounds.maxY.toNat :=
  length_reverseRows ..

theorem toPalettized_eq (hproper : b.bounds.IsProper) (hmono : b.format = .mono) :
    b.toPalettized = .ok b.paletteForm := by
  have hmaxX : (b.bounds.union {}).maxX = b.bounds.maxX :=
    Interval.stop_union_zero hproper.columns
  have hmaxY : (b.bounds.union {}).maxY = b.bounds.maxY :=
    Interval.stop_union_zero hproper.rows
  have hright : b.bounds.maxX ≤ 32767 := hproper.columns.stop_le
  have hbottom : b.bounds.maxY ≤ 32767 := hproper.rows.stop_le
  have hw : (Int16.ofInt b.bounds.maxX).toInt = b.bounds.maxX :=
    Interval.toInt_ofInt_of_mem hproper.columns.stop_nonneg hright
  have hh : (Int16.ofInt b.bounds.maxY).toInt = b.bounds.maxY :=
    Interval.toInt_ofInt_of_mem hproper.rows.stop_nonneg hbottom
  have hblank := allocateBlank_eq ⟨Int16.ofInt b.bounds.maxX, Int16.ofInt b.bounds.maxY⟩
    (show PixelFormat.palette1 ≠ .circular by decide)
  simp only [toPalettized, hmaxX, hmaxY]
  rw [if_pos hmono, if_neg (by unfold maxCoordinate; omega), hblank]
  have hstride : (UInt16.ofNat (PixelFormat.palette1.rowStride b.bounds.maxX.toNat)).toNat
      = PixelFormat.palette1.rowStride b.bounds.maxX.toNat := toNat_rowSize_paletteForm hproper
  simp only [Except.map, hw, hh, hstride]
  rfl

theorem toPalettized_eq_ok {form : Bitmap} (hproper : b.bounds.IsProper)
    (h : b.toPalettized = .ok form) : form = b.paletteForm := by
  by_cases hmono : b.format = .mono
  · exact Except.ok.inj (h.symm.trans (toPalettized_eq hproper hmono))
  · rw [toPalettized, if_neg hmono] at h
    cases h

end DialGraphics.Bitmap
