import DialGraphics.Proofs.Bitmap.PaletteForm
import DialGraphics.Proofs.Bitmap.PngColors

/-!
# Light and dark pixels of a PNG

What a legacy app makes of a PNG. A bit of the bitmap is set exactly if it stands for a pixel of the
first frame and that pixel is light; the bits behind the last pixel of a row are clear. Which bytes
are accepted, and why others are not, does not depend on the platform.
-/

namespace DialGraphics

namespace Bitmap

open Png (Frame Header TransparentKey)

/-! ### The bits of a row -/

/-- Bit `k` of byte `i` of a row, if it is set. -/
def lightBit (width : Nat) (isLight : Nat → Bool) (i k : Nat) : UInt8 :=
  if 8 * i + k < width && isLight (8 * i + k) then 1 <<< UInt8.ofNat k else 0

theorem lightByte_eq_foldl (width : Nat) (isLight : Nat → Bool) (i : Nat) :
    lightByte width isLight i
      = (List.range 8).foldl (fun byte k => byte ||| lightBit width isLight i k) 0 := by
  unfold lightByte
  congr 1
  funext byte k
  unfold lightBit
  split
  · rfl
  · exact UInt8.or_zero.symm

theorem testBit_lightBit (width : Nat) (isLight : Nat → Bool) (i : Nat) {j k : Nat} (hj : j < 8) :
    (lightBit width isLight i j).toNat.testBit k
      = (decide (j = k) && (decide (8 * i + j < width) && isLight (8 * i + j))) := by
  have hbit : ((1 : UInt8) <<< UInt8.ofNat j).toNat = 2 ^ j := by
    revert j
    decide
  unfold lightBit
  split
  · rename_i hset
    rw [hset, hbit, Nat.testBit_two_pow, Bool.and_true]
  · rename_i hclear
    rw [Bool.not_eq_true] at hclear
    rw [hclear, Bool.and_false]
    exact Nat.zero_testBit k

/-- Each bit of a byte is that of its own pixel. -/
theorem testBit_lightByte (width : Nat) (isLight : Nat → Bool) (i : Nat) {k : Nat} (hk : k < 8) :
    (lightByte width isLight i).toNat.testBit k
      = (decide (8 * i + k < width) && isLight (8 * i + k)) := by
  rw [lightByte_eq_foldl, testBit_foldl_or, UInt8.toNat_zero, Nat.zero_testBit, Bool.false_or,
    Bool.eq_iff_iff, List.any_eq_true]
  constructor
  · rintro ⟨j, hj, hbit⟩
    rw [testBit_lightBit width isLight i (List.mem_range.1 hj), Bool.and_eq_true,
      decide_eq_true_iff] at hbit
    obtain ⟨rfl, hlight⟩ := hbit
    exact hlight
  · intro hlight
    refine ⟨k, List.mem_range.2 hk, ?_⟩
    rw [testBit_lightBit width isLight i hk, hlight, decide_eq_true rfl]
    rfl

/-! ### The bits of a bitmap -/

/-- A row of `stride` bytes, a bit for each of `width` pixels. -/
def lightRow (stride width : Nat) (color : Nat → Rgba) : Bytes :=
  (List.range stride).map (lightByte width fun x => (color x).isLight)

theorem length_lightRow (stride width : Nat) (color : Nat → Rgba) :
    (lightRow stride width color).length = stride := by
  rw [lightRow, List.length_map, List.length_range]

section OfLight

variable {frame : Frame} {size : Size} {b : Bitmap} {colorAt : Array UInt8 → Nat → Rgba}

theorem ofLight_spec (h : ofLight frame size colorAt = .ok b) :
    b.format = .mono ∧ b.bounds = .ofSize size ∧ b.colors? = none
      ∧ b.rowSize.toNat = PixelFormat.mono.rowStride size.w.toInt.toNat
      ∧ b.data = ((frameRows frame).map fun row =>
          lightRow b.rowSize.toNat size.w.toInt.toNat (colorAt row.toArray)).flatten := by
  obtain ⟨zeros, hzeros, rfl⟩ := map_eq_ok_iff.1 h
  obtain ⟨-, hformat, hbounds, habsent, hstride, -⟩ := allocateBlank_fixed (by decide) hzeros
  refine ⟨hformat, hbounds, ?_, hstride, ?_⟩
  · simp only [colors?, habsent]
  · simp only [data, habsent]
    rfl

theorem testBit_of_ofLight (h : ofLight frame size colorAt = .ok b) {row : Bytes} {y k : Nat}
    (hrow : (frameRows frame)[y]? = some row) (hk : k < 8 * b.rowSize.toNat) :
    ∃ byte, b.data[y * b.rowSize.toNat + k / 8]? = some byte
      ∧ byte.toNat.testBit (k % 8)
        = (decide (k < size.w.toInt.toNat) && (colorAt row.toArray k).isLight) := by
  obtain ⟨-, -, -, -, hdata⟩ := ofLight_spec h
  have hplace : k / 8 < b.rowSize.toNat := by omega
  have hpixel : 8 * (k / 8) + k % 8 = k := Nat.div_add_mod k 8
  have hnew : ((frameRows frame).map fun row =>
      lightRow b.rowSize.toNat size.w.toInt.toNat (colorAt row.toArray))[y]?
        = some (lightRow b.rowSize.toNat size.w.toInt.toNat (colorAt row.toArray)) := by
    rw [List.getElem?_map, hrow, Option.map_some]
  refine ⟨lightByte size.w.toInt.toNat (fun x => (colorAt row.toArray x).isLight) (k / 8), ?_, ?_⟩
  · rw [hdata, Bytes.getElem?_flatten (List.forall_mem_map.2 fun _ _ => length_lightRow ..) hnew
      hplace, lightRow, List.getElem?_map, List.getElem?_range hplace, Option.map_some]
  · rw [testBit_lightByte _ _ _ (Nat.mod_lt k (by decide)), hpixel]

end OfLight

/-! ### What is accepted -/

theorem exists_ofFrame (h : Header) (palette : List Rgba) (key : Option TransparentKey)
    (frame : Frame) (size : Size) (platform : Platform) :
    ∃ b, ofFrame h palette key frame size platform = .ok b := by
  have hmade : ∀ {format : PixelFormat} (change : Bitmap → Bitmap), format ≠ .circular →
      ∃ b, (allocateBlank size format).map change = .ok b := by
    intro format change hformat
    rw [allocateBlank_eq size hformat]
    exact ⟨_, rfl⟩
  unfold ofFrame
  split
  · exact hmade _ (by decide)
  · rename_i hformat
    exact hmade _ (palettized?_ne_circular hformat)
  · rename_i hformat
    exact hmade _ (palettized?_ne_circular hformat)
  · exact hmade _ (by decide)

/-- A file that cannot be decoded is the same error on each platform, and every frame can be made a
bitmap on each. -/
theorem ofPng_eq_error_iff (i : Deflate.Inflater) (bytes : Bytes) (platform other : Platform)
    (e : DecodeError) :
    BySlices.ofPng i bytes platform = .error e ↔ BySlices.ofPng i bytes other = .error e := by
  simp only [BySlices.ofPng]
  split
  · exact Iff.rfl
  · rename_i header _ _
    split
    · exact Iff.rfl
    · rename_i size _
      split
      · exact Iff.rfl
      · rename_i frame d _
        obtain ⟨b, hb⟩ :=
          exists_ofFrame header d.metadata.palette d.metadata.key frame size platform
        obtain ⟨c, hc⟩ := exists_ofFrame header d.metadata.palette d.metadata.key frame size other
        rw [hb, hc]
        constructor
        · intro h
          cases h
        · intro h
          cases h

/-- For a legacy app each bit of the bitmap of a PNG says whether its pixel is light in the first
frame, and the bits up to the end of the row that stand for no pixel are clear. The same bytes are
accepted as for a current app, and the others fail in the same way. The inflater may be any. -/
theorem bits_of_ofPng_legacy (i : Deflate.Inflater) {platform : Platform}
    (hlegacy : platform.compat = .legacy) (bytes : Bytes) :
    (∀ b, BySlices.ofPng i bytes platform = .ok b →
        ∃ header frame d,
          Png.Decoder.BySlices.performAll i (Png.Decoder.ofBytes bytes)
                [.header, .metadata, .frame]
              = ([.header (.ok header), .metadata (.ok ()), .frame (.ok frame)], d)
            ∧ b.format = .mono ∧ b.rowSize.toNat = PixelFormat.mono.rowStride header.width
            ∧ b.colors? = none ∧ b.bounds.origin = ⟨0, 0⟩
            ∧ b.bounds.size.w.toInt = header.width ∧ b.bounds.size.h.toInt = header.height
            ∧ b.data.length = b.rowSize.toNat * header.height
            ∧ ∀ y < header.height, ∀ k < 8 * b.rowSize.toNat,
              ∃ byte, b.data[y * b.rowSize.toNat + k / 8]? = some byte
                ∧ (byte.toNat.testBit (k % 8) = true
                  ↔ k < header.width
                    ∧ (Png.sample header d.metadata.palette d.metadata.key
                        (frame.row y).toArray k).isLight = true))
      ∧ ∀ current : Platform, current.compat = .current →
        ∀ e, BySlices.ofPng i bytes platform = .error e
          ↔ BySlices.ofPng i bytes current = .error e := by
  refine ⟨fun b h => ?_, fun current _ => ofPng_eq_error_iff i bytes platform current⟩
  obtain ⟨header, frame, d, size, hrun, hframe, hwidth, hheight, hb⟩ := exists_firstFrame h
  have hlight : ofLight frame size (Png.sample header d.metadata.palette d.metadata.key)
      = .ok b := by
    rw [← hb, ofFrame, hlegacy]
  obtain ⟨hformat, hbounds, hcolors, hstride, hdata⟩ := ofLight_spec hlight
  have hcolumns : size.w.toInt.toNat = header.width := by omega
  refine ⟨header, frame, d, hrun, hformat, ?_, hcolors, ?_, ?_, ?_, ?_, ?_⟩
  · rw [hstride, hcolumns]
  · rw [hbounds]
    rfl
  · rw [hbounds]
    exact hwidth
  · rw [hbounds]
    exact hheight
  · rw [hdata, Bytes.length_flatten_map fun _ _ => length_lightRow .., frameRows,
      Bytes.length_wholeGroups, hframe.length, Nat.mul_div_cancel_left _ hframe.stride_pos]
  · intro y hy k hk
    obtain ⟨byte, hbyte, hbit⟩ := testBit_of_ofLight hlight
      (getElem?_frameRows hframe.stride_pos hframe.length hy) hk
    refine ⟨byte, hbyte, ?_⟩
    rw [hbit, hcolumns, Bool.and_eq_true, decide_eq_true_iff]

/-- A small file in which the first colour is light and the second one dark. -/
def twoTones : Png.StillFile :=
  { Png.StillFile.smallFile with
    palette := [⟨Png.Tag.plte, [0, 255, 0, 255, 0, 0], 7⟩]
    palette_nil := fun h => absurd rfl h
    palette_one := fun _ => ⟨_, rfl, rfl, by decide, by decide⟩ }

/-- A dark pixel, a light one without a palette entry, and the bit behind the last pixel. -/
theorem bits_of_ofPng_twoTones :
    ∃ b, BySlices.ofPng Deflate.Inflater.rereading twoTones.toBytes .legacy = .ok b
      ∧ b.rowSize = 4
      ∧ ∃ byte, b.data[4]? = some byte ∧ byte.toNat.testBit 1 = false
        ∧ byte.toNat.testBit 2 = true ∧ byte.toNat.testBit 3 = false := by
  have hsize : RawLayout.size? 3 2 = some ⟨3, 2⟩ := by decide
  have hi := Deflate.Inflater.readsOneStream_rereading
  obtain ⟨b, h⟩ : ∃ b, BySlices.ofPng Deflate.Inflater.rereading twoTones.toBytes .legacy = .ok b :=
    ⟨_, ofPng_stillFile hi twoTones hsize .legacy⟩
  have hlegacy : Platform.legacy.compat = .legacy := rfl
  obtain ⟨hbits, -⟩ := bits_of_ofPng_legacy Deflate.Inflater.rereading hlegacy twoTones.toBytes
  obtain ⟨header, frame, d, hrun, -, hstride, -, -, -, -, -, hbits⟩ := hbits b h
  rw [performAll_stillFile hi] at hrun
  cases hrun
  have hrow : b.rowSize = 4 := UInt16.toNat_inj.1 hstride
  have hwide : b.rowSize.toNat = 4 := hstride
  rw [hwide] at hbits
  obtain ⟨byte, hbyte, hdark⟩ := hbits 1 (by decide) 1 (by decide)
  obtain ⟨byte₂, hbyte₂, hlight⟩ := hbits 1 (by decide) 2 (by decide)
  obtain ⟨byte₃, hbyte₃, hbehind⟩ := hbits 1 (by decide) 3 (by decide)
  cases hbyte₂.symm.trans hbyte
  cases hbyte₃.symm.trans hbyte
  refine ⟨b, h, hrow, byte, hbyte, ?_, ?_, ?_⟩
  · exact Bool.eq_false_iff.2 fun hset => absurd (hdark.1 hset).2 (by decide)
  · exact hlight.2 ⟨by decide, by decide⟩
  · exact Bool.eq_false_iff.2 fun hset => absurd (hbehind.1 hset).1 (by decide)

end Bitmap

end DialGraphics
