import DialGraphics.Proofs.Bitmap.Blank
import DialGraphics.Proofs.Bitmap.RawFile
import DialGraphics.Proofs.Png.FirstFrame

/-!
# Decoded bitmaps

The first frame of a PNG has as many rows as the header says, so each bitmap that is made of it has
all its rows.
-/

namespace DialGraphics.Bitmap

variable {frame : Png.Frame} {size : Size} {b : Bitmap}

theorem palettized?_ne_circular {depth : Nat} {format : PixelFormat}
    (h : PixelFormat.palettized? depth = some format) : format ≠ .circular := by
  unfold PixelFormat.palettized? at h
  split at h <;> cases h <;> decide

/-! ### One bitmap for each format -/

theorem isSound_of_ofPackedRows {format : PixelFormat} {colors : List Color}
    (hformat : format ≠ .circular) (hsize : size.isNegative = false)
    (hcount : (frameRows frame).length = size.h.toInt.toNat)
    (h : ofPackedRows frame size format colors = .ok b) : b.IsSound := by
  obtain ⟨zeros, hzeros, rfl⟩ := map_eq_ok_iff.1 h
  refine isSound_of_newRows hformat hsize hzeros hcount ?_ ?_ rfl
  · intro row _
    exact Bytes.length_fit ..
  · exact fun _ h => nomatch h

theorem isSound_of_ofColors {colorAt : Array UInt8 → Nat → Rgba} (hsize : size.isNegative = false)
    (hcount : (frameRows frame).length = size.h.toInt.toNat)
    (h : ofColors frame size colorAt = .ok b) : b.IsSound := by
  obtain ⟨zeros, hzeros, rfl⟩ := map_eq_ok_iff.1 h
  refine isSound_of_newRows (by decide) hsize hzeros hcount ?_ ?_ rfl
  · intro row _
    rw [List.length_map, List.length_range]
  · intro offset hoffset
    cases (absent_of_allocateBlank hzeros).symm.trans hoffset

theorem isSound_of_ofLight {colorAt : Array UInt8 → Nat → Rgba} (hsize : size.isNegative = false)
    (hcount : (frameRows frame).length = size.h.toInt.toNat)
    (h : ofLight frame size colorAt = .ok b) : b.IsSound := by
  obtain ⟨zeros, hzeros, rfl⟩ := map_eq_ok_iff.1 h
  refine isSound_of_newRows (by decide) hsize hzeros hcount ?_ ?_ rfl
  · intro row _
    rw [List.length_map, List.length_range]
  · intro offset hoffset
    cases (absent_of_allocateBlank hzeros).symm.trans hoffset

theorem isSound_of_ofFrame {h : Png.Header} {palette : List Rgba} {key : Option Png.TransparentKey}
    {platform : Platform} (hsize : size.isNegative = false)
    (hcount : (frameRows frame).length = size.h.toInt.toNat)
    (hb : ofFrame h palette key frame size platform = .ok b) : b.IsSound := by
  unfold ofFrame at hb
  split at hb
  · exact isSound_of_ofLight hsize hcount hb
  · rename_i hformat
    exact isSound_of_ofPackedRows (palettized?_ne_circular hformat) hsize hcount hb
  · rename_i hformat
    exact isSound_of_ofPackedRows (palettized?_ne_circular hformat) hsize hcount hb
  · exact isSound_of_ofColors hsize hcount hb

/-! ### Files and resources -/

theorem ofPng_bySlices {i : Deflate.Inflater} (hi : i.ReadsOneStream) (bytes : Bytes)
    (platform : Platform) : BySlices.ofPng i bytes platform = ofPng bytes platform := by
  simp only [BySlices.ofPng, Png.Decoder.nextFrame_bySlices hi]
  rfl

/-- The bitmap of a PNG is made of a frame with as many rows as the bitmap is high. -/
theorem exists_ofFrame_of_ofPng {bytes : Bytes} {platform : Platform}
    (h : ofPng bytes platform = .ok b) :
    ∃ header palette key frame size, size.isNegative = false
      ∧ (frameRows frame).length = size.h.toInt.toNat
      ∧ ofFrame header palette key frame size platform = .ok b := by
  rw [← ofPng_bySlices Deflate.Inflater.readsOneStream_rereading] at h
  simp only [BySlices.ofPng] at h
  split at h
  · cases h
  · rename_i header d hheader
    split at h
    · cases h
    · rename_i size hsize
      split at h
      · cases h
      · rename_i frame next hframe
        obtain ⟨haccepted, -, hheight, hstride, hlength⟩ :=
          Png.Decoder.firstFrame_geometry hheader hframe
        have hpos : 0 < frame.rowStride := by
          rw [hstride]
          exact haccepted.rowStride_pos haccepted.width_pos
        have hcount : (frameRows frame).length = size.h.toInt.toNat := by
          rw [frameRows, Bytes.length_wholeGroups, hlength, Nat.mul_div_cancel_left _ hpos,
            hheight, (RawLayout.size?_eq_some hsize).2, Int.toNat_natCast]
        exact ⟨_, _, _, _, size, RawLayout.isNegative_of_size? hsize, hcount, h⟩

theorem isSound_of_ofPng {bytes : Bytes} {platform : Platform}
    (h : ofPng bytes platform = .ok b) : b.IsSound := by
  obtain ⟨_, _, _, _, _, hsize, hcount, hb⟩ := exists_ofFrame_of_ofPng h
  exact isSound_of_ofFrame hsize hcount hb

theorem isSound_of_ofResource {m : ResourceMap} {key : ResourceKey} {platform : Platform}
    (h : (ofResource m key platform).1 = .ok b) : b.IsSound := by
  simp only [ofResource] at h
  split at h
  · cases h
  · split at h
    · exact isSound_of_ofPng h
    · split at h
      · cases h
      · rename_i raw hraw
        cases h
        exact isSound_of_ofRawResource hraw

end DialGraphics.Bitmap
