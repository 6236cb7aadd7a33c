import DialGraphics.Proofs.Machine.Decoder
import DialGraphics.Proofs.Machine.Pixels
import DialGraphics.Proofs.Machine.RawFile
import DialGraphics.Proofs.Png.FirstFrame

/-!
# PNGs fit the machine

The first frame has as many rows as the bitmap that is made of it, and none of them is empty, so
rows of the frame and rows of the bitmap can be taken in pairs. With that every PNG decodes to a
bitmap or to an error.
-/

namespace DialGraphics.Machine

open Png (Frame Header TransparentKey)

/-! ### Rows in pairs -/

theorem wholeGroups_replicate {stride : Nat} (hstride : 0 < stride) (count : Nat) :
    Bytes.wholeGroups stride (List.replicate (stride * count) 0)
      = List.replicate count (List.replicate stride 0) := by
  have hrows : ∀ row ∈ List.replicate count (List.replicate stride (0 : UInt8)),
      row.length = stride := by
    intro row hrow
    rw [(List.mem_replicate.1 hrow).2, List.length_replicate]
  have hflat : List.replicate (stride * count) (0 : UInt8)
      = (List.replicate count (List.replicate stride 0)).flatten := by
    rw [List.flatten_replicate_replicate, Nat.mul_comm]
  rw [hflat, Bytes.wholeGroups_flatten hstride hrows]

theorem writeRows_eq {write : Bytes → Bytes → Checked Bytes} {new : Bytes → Bytes}
    {stride count : Nat} {frame : Frame} (hstride : 0 < stride) (hpacked : 0 < frame.rowStride)
    (hdata : frame.data.length = frame.rowStride * count)
    (hwrite : ∀ row, write (List.replicate stride 0) row = .ok (new row)) :
    writeRows write stride frame (List.replicate (stride * count) 0)
      = .ok ((Bitmap.frameRows frame).map new).flatten := by
  have hwhole : (List.replicate (stride * count) (0 : UInt8)).length % stride = 0 := by
    rw [List.length_replicate, Nat.mul_mod_right]
  have hrows : frame.data.length % frame.rowStride = 0 := by rw [hdata, Nat.mul_mod_right]
  have hcount : (Bitmap.frameRows frame).length = count := by
    rw [Bitmap.frameRows, Bytes.length_wholeGroups, hdata, Nat.mul_div_cancel_left _ hpacked]
  have hpairs : ∀ pair ∈ (List.replicate count (List.replicate stride (0 : UInt8))).zip
      (Bitmap.frameRows frame), write pair.1 pair.2 = .ok ((new ∘ Prod.snd) pair) := by
    intro pair hpair
    have hzeros := List.mem_replicate.1 (List.of_mem_zip hpair).1
    rw [hzeros.2]
    exact hwrite pair.2
  have hle : (Bitmap.frameRows frame).length
      ≤ (List.replicate count (List.replicate stride (0 : UInt8))).length := by
    rw [List.length_replicate]
    exact Nat.le_of_eq hcount
  have hseconds : ((List.replicate count (List.replicate stride (0 : UInt8))).zip
      (Bitmap.frameRows frame)).map (new ∘ Prod.snd) = (Bitmap.frameRows frame).map new := by
    rw [← List.map_map, List.map_snd_zip hle]
  unfold writeRows
  rw [wholeChunks_eq hstride hwhole, ok_bind, wholeGroups_replicate hstride]
  simp only
  rw [chunks_eq hpacked hrows, ok_bind, ← Bitmap.frameRows, mapM_eq hpairs, ok_bind, hseconds,
    hcount, List.drop_replicate, Nat.sub_self]
  simp only [List.replicate_zero, List.append_nil]

/-! ### Bitmaps -/

theorem zeros_of_allocateBlank {size : Size} {format : PixelFormat} {b : Bitmap}
    (hformat : format ≠ .circular) (h : Bitmap.allocateBlank size format = .ok b) :
    b.pixels.toBytes = List.replicate (b.rowSize.toNat * size.h.toInt.toNat) 0 := by
  obtain ⟨-, -, -, -, hstride, -⟩ := Bitmap.allocateBlank_fixed hformat h
  rw [hstride]
  rw [Bitmap.allocateBlank_eq size hformat] at h
  cases h
  rfl

/-- A frame whose rows can be paired with those of a bitmap of a given size. -/
structure Pairs (frame : Frame) (size : Size) : Prop where
  width_pos : 0 < size.w.toInt.toNat
  stride_pos : 0 < frame.rowStride
  length : frame.data.length = frame.rowStride * size.h.toInt.toNat

theorem rowStride_pos {format : PixelFormat} (hformat : format ≠ .circular) {width : Nat}
    (hwidth : 0 < width) : 0 < format.rowStride width := by
  cases format with
  | circular => exact absurd rfl hformat
  | _ =>
    simp only [PixelFormat.rowStride, PixelFormat.bitsPerPixel]
    omega

theorem Pairs.writeRows_eq {frame : Frame} {size : Size} (hp : Pairs frame size)
    {format : PixelFormat} (hformat : format ≠ .circular) {b : Bitmap}
    (hb : Bitmap.allocateBlank size format = .ok b) {write : Bytes → Bytes → Checked Bytes}
    {new : Bytes → Bytes}
    (hwrite : ∀ row, write (List.replicate b.rowSize.toNat 0) row = .ok (new row)) :
    writeRows write b.rowSize.toNat frame b.pixels.toBytes
      = .ok ((Bitmap.frameRows frame).map new).flatten := by
  obtain ⟨-, -, -, -, hstride, -⟩ := Bitmap.allocateBlank_fixed hformat hb
  have hpos : 0 < b.rowSize.toNat := by
    rw [hstride]
    exact rowStride_pos hformat hp.width_pos
  rw [zeros_of_allocateBlank hformat hb]
  exact Machine.writeRows_eq hpos hp.stride_pos hp.length hwrite

theorem ofPackedRows_eq {frame : Frame} {size : Size} (hp : Pairs frame size)
    {format : PixelFormat} (hformat : format ≠ .circular) (colors : List Color) :
    ofPackedRows frame size format colors
      = settled (Bitmap.ofPackedRows frame size format colors) := by
  unfold ofPackedRows Bitmap.ofPackedRows
  rw [allocateBlank_eq]
  cases hb : Bitmap.allocateBlank size format with
  | error e => rfl
  | ok b =>
    rw [settled_ok_bind, hp.writeRows_eq hformat hb (copyRow_eq b.rowSize.toNat), lift_ok,
      settled_ok_bind, paletteSize_eq]
    rfl

theorem ofColors_eq {frame : Frame} {size : Size} (hp : Pairs frame size)
    {colorAt : Array UInt8 → Nat → Checked Rgba} {color : Array UInt8 → Nat → Rgba}
    (h : ∀ cells, ∀ x < 2 ^ 32, colorAt cells x = .ok (color cells x)) :
    ofColors frame size colorAt = settled (Bitmap.ofColors frame size color) := by
  unfold ofColors Bitmap.ofColors
  rw [allocateBlank_eq]
  cases hb : Bitmap.allocateBlank size .color with
  | error e => rfl
  | ok b =>
    have hrow : ∀ row : Bytes, colorRow colorAt (List.replicate b.rowSize.toNat 0) row
        = .ok ((List.range b.rowSize.toNat).map fun x =>
            (Color.ofRgba (color row.toArray x)).argb) := by
      intro row
      apply colorRow_eq
      intro x hx
      have := b.rowSize.toNat_lt
      exact h _ x (by omega)
    rw [settled_ok_bind, hp.writeRows_eq (by decide) hb hrow]
    rfl

theorem ofLight_eq {frame : Frame} {size : Size} (hp : Pairs frame size)
    {colorAt : Array UInt8 → Nat → Checked Rgba} {color : Array UInt8 → Nat → Rgba}
    (h : ∀ cells, ∀ x < 2 ^ 32, colorAt cells x = .ok (color cells x)) :
    ofLight frame size colorAt = settled (Bitmap.ofLight frame size color) := by
  have hpos := hp.width_pos
  have hwide := size.w.toInt_lt
  have hwidth : toUnsigned 64 size.w.toInt = size.w.toInt.toNat :=
    toUnsigned_eq (by omega) (by omega)
  unfold ofLight Bitmap.ofLight
  rw [allocateBlank_eq]
  cases hb : Bitmap.allocateBlank size .mono with
  | error e => rfl
  | ok b =>
    obtain ⟨-, -, -, -, hstride, -⟩ := Bitmap.allocateBlank_fixed (by decide) hb
    have hroom : size.w.toInt.toNat ≤ 8 * b.rowSize.toNat := by
      rw [hstride, PixelFormat.rowStride]
      omega
    have hrow : ∀ row : Bytes,
        lightRow size.w.toInt.toNat colorAt (List.replicate b.rowSize.toNat 0) row
          = .ok ((List.range b.rowSize.toNat).map
              (Bitmap.lightByte size.w.toInt.toNat fun x => (color row.toArray x).isLight)) := by
      intro row
      apply lightRow_eq hroom
      intro x hx
      exact h _ x (by omega)
    simp only [settled_ok_bind, hwidth]
    rw [hp.writeRows_eq (by decide) hb hrow]
    rfl

theorem grayLevels_eq {format : PixelFormat} {depth : Nat}
    (hformat : PixelFormat.palettized? depth = some format) (key : Option TransparentKey) :
    grayLevels format depth key = .ok (Png.grayLevels depth key) := by
  obtain ⟨hbits, hpalettized⟩ := PixelFormat.of_palettized? hformat
  have hdepth : depth ∈ packedDepths := by
    unfold PixelFormat.palettized? at hformat
    split at hformat <;> first | decide | cases hformat
  have hcount : format.paletteSize % 256 = Nat.pow 2 depth := by
    rw [PixelFormat.paletteSize, if_pos hpalettized, ← hbits]
    cases format with
    | mono | color | circular => cases hpalettized
    | palette1 | palette2 | palette4 => rfl
  unfold grayLevels Png.grayLevels
  rw [paletteSize_eq, ok_bind, hcount]
  apply mapM_eq
  intro v hv
  split
  · rfl
  · rw [spread_eq hdepth (List.mem_range.1 hv), ok_bind]

theorem ofFrame_eq {h : Header} (ha : h.IsAccepted) (palette : List Rgba)
    (key : Option TransparentKey) {frame : Frame} {size : Size} (hp : Pairs frame size)
    (platform : Platform) :
    ofFrame h palette key frame size platform
      = settled (Bitmap.ofFrame h palette key frame size platform) := by
  have hsample : ∀ cells, ∀ x < 2 ^ 32,
      sample h palette key cells x = .ok (Png.sample h palette key cells x) :=
    fun cells x hx => sample_eq ha palette key cells hx
  unfold ofFrame Bitmap.ofFrame
  cases platform.compat with
  | legacy => exact ofLight_eq hp hsample
  | current =>
    cases hformat : PixelFormat.palettized? h.depth with
    | none => cases h.color <;> exact ofColors_eq hp hsample
    | some format =>
      have hcircular := Bitmap.palettized?_ne_circular hformat
      cases h.color with
      | indexed => exact ofPackedRows_eq hp hcircular _
      | gray =>
        simp only
        rw [grayLevels_eq hformat, lift_ok, settled_ok_bind]
        exact ofPackedRows_eq hp hcircular _
      | _ => exact ofColors_eq hp hsample

theorem ofPng_eq {i : Deflate.Inflater} (hi : i.StaysInOutput) (bytes : Bytes)
    (platform : Platform) :
    ofPng i bytes platform = settled (Bitmap.BySlices.ofPng i bytes platform) := by
  have hopened := isAddressed_readHeader (isAddressed_ofBytes bytes)
  unfold ofPng Bitmap.BySlices.ofPng
  rw [ofBytes_eq, lift_ok, settled_ok_bind]
  cases hr : (Png.Decoder.ofBytes bytes).readHeader with
  | mk result d =>
    rw [hr] at hopened
    cases result with
    | error e => rfl
    | ok h =>
      simp only
      cases hsize : RawLayout.size? h.width h.height with
      | none => rfl
      | some size =>
        rw [orFail_some, settled_ok_bind, (nextFrame_eq hi hopened).1, lift_ok, settled_ok_bind]
        cases hn : Png.Decoder.BySlices.nextFrame i d with
        | mk result next =>
          cases result with
          | error e => rfl
          | ok frame =>
            obtain ⟨haccepted, -, hframeHeight, hstride, hlength⟩ :=
              Png.Decoder.firstFrame_geometry hr hn
            obtain ⟨hwidth, hheight⟩ := RawLayout.size?_eq_some hsize
            have hpos := haccepted.width_pos
            have hp : Pairs frame size := by
              refine ⟨?_, ?_, ?_⟩
              · omega
              · rw [hstride]
                exact haccepted.rowStride_pos hpos
              · rw [hlength, hframeHeight, hheight, Int.toNat_natCast]
            exact ofFrame_eq haccepted _ _ hp platform

end DialGraphics.Machine
