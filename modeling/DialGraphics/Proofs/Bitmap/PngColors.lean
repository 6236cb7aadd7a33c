import DialGraphics.Bitmap.PixelAt
import DialGraphics.Proofs.Bitmap.Decoded
import DialGraphics.Proofs.Png.FirstError
import DialGraphics.Proofs.Png.StillImage

/-!
# The colours of a PNG

A bitmap of packed rows with a palette and one with a colour byte for each pixel show the same: the
colour that each pixel of the first frame has by itself. What the palette is made of, and how a row
is unpacked, agree for each colour type and depth.
-/

namespace DialGraphics

/-! ### Packed values -/

namespace Png

/-- The bytes of a row, as they are in the data. -/
def Frame.row (frame : Frame) (y : Nat) : Bytes :=
  (frame.data.drop (y * frame.rowStride)).take frame.rowStride

theorem packedValue_lt (row : Array UInt8) (x depth : Nat) :
    packedValue row x depth < Nat.pow 2 depth :=
  Nat.mod_lt _ (Nat.pow_pos (by decide))

/-- Each group of bits of a spread value is the value. -/
theorem spread_groups {depth value k : Nat} (hdepth : depth ∈ [1, 2, 4, 8])
    (hvalue : value < Nat.pow 2 depth) (hk : k < 8 / depth) :
    (spread depth value).toNat / Nat.pow 2 (depth * k) % Nat.pow 2 depth = value := by
  have hall : ∀ depth ∈ [1, 2, 4, 8], ∀ value < Nat.pow 2 depth, ∀ k < 8 / depth,
      (spread depth value).toNat / Nat.pow 2 (depth * k) % Nat.pow 2 depth = value := by
    decide +kernel
  exact hall depth hdepth value hvalue k hk

end Png

namespace PixelFormat

theorem of_palettized? {depth : Nat} {format : PixelFormat} (h : palettized? depth = some format) :
    format.bitsPerPixel = depth ∧ format.isPalettized = true := by
  unfold palettized? at h
  split at h <;> cases h <;> exact ⟨rfl, rfl⟩

theorem ne_circular {format : PixelFormat} (hp : format.isPalettized = true) :
    format ≠ .circular := by
  rintro rfl
  cases hp

/-- Both unpack a row from the highest bit down. -/
theorem valueAt?_eq_packedValue {format : PixelFormat} (hp : format.isPalettized = true)
    {row : Bytes} {width x : Nat} (hrow : row.length = format.rowStride width) (hx : x < width) :
    format.valueAt? row x = some (Png.packedValue row.toArray x format.bitsPerPixel) := by
  have hbyte : x / (8 / format.bitsPerPixel) < row.length := by
    rw [hrow]
    cases format with
    | mono | color | circular => cases hp
    | palette1 | palette2 | palette4 =>
      simp only [bitsPerPixel, rowStride]
      omega
  have hshift : ∀ place, format.shift place = 8 - format.bitsPerPixel * (place + 1) := by
    intro place
    cases format with
    | mono => cases hp
    | _ => rfl
  simp only [valueAt?, Png.packedValue, List.getElem?_toArray, hshift,
    List.getElem?_eq_getElem hbyte, Option.map_some, Option.getD_some]

theorem valueAt?_color {row : Bytes} {x : Nat} {byte : UInt8} (hbyte : row[x]? = some byte) :
    color.valueAt? row x = some byte.toNat := by
  have hx : x / (8 / color.bitsPerPixel) = x := Nat.div_one x
  have hshift : color.shift (x % (8 / color.bitsPerPixel)) = 0 := by
    show 8 - 8 * (x % 1 + 1) = 0
    rw [Nat.mod_one]
  simp only [valueAt?, hx, hbyte, hshift, Option.map_some, Nat.shiftRight_zero]
  congr 1
  exact Nat.mod_eq_of_lt byte.toNat_lt

end PixelFormat

namespace Bitmap

open Png (Frame Header TransparentKey)

/-! ### Rows of a new bitmap -/

theorem row?_of_newRows {size : Size} {format : PixelFormat} {zeros b : Bitmap} {rows : List Bytes}
    {f : Bytes → Bytes} (hformat : format ≠ .circular) (h : allocateBlank size format = .ok zeros)
    (hlength : ∀ row ∈ rows, (f row).length = zeros.rowSize.toNat)
    (hpalette : ∀ offset, b.palette ≠ .trailing offset)
    (hb : b = { zeros with pixels := .owned (rows.map f).flatten, palette := b.palette }) {y : Nat}
    {row : Bytes} (hrow : rows[y]? = some row) :
    b.row? y = some ⟨f row, 0, Interval.clamp (size.w.toInt - 1) (-1) maxCoordinate⟩ := by
  obtain ⟨hrows, -, hbounds, -, -, -⟩ := allocateBlank_fixed hformat h
  have hnone : b.rows = none := by
    rw [hb]
    exact hrows
  have hsize : b.rowSize = zeros.rowSize := by rw [hb]
  have hmaxX : b.bounds.maxX = size.w.toInt := by
    rw [hb]
    show zeros.bounds.maxX = _
    rw [hbounds, Rect.maxX_ofSize]
  have hdata : b.data = (rows.map f).flatten := by
    rw [data_of_not_trailing hpalette, hb]
    rfl
  have hlengths : ∀ new ∈ rows.map f, new.length = b.rowSize.toNat := by
    intro new hnew
    obtain ⟨old, hold, rfl⟩ := List.mem_map.1 hnew
    rw [hsize, hlength old hold]
  have hnew : (rows.map f)[y]? = some (f row) := by rw [List.getElem?_map, hrow, Option.map_some]
  obtain ⟨hy, -⟩ := List.getElem?_eq_some_iff.1 hnew
  have hend : (y + 1) * b.rowSize.toNat ≤ b.data.length := by
    rw [hdata, Bytes.length_flatten_of_forall hlengths, Nat.mul_comm b.rowSize.toNat]
    exact Nat.mul_le_mul_right _ hy
  rw [row?_of_rows_none hnone, if_pos hend, hdata, Bytes.take_drop_flatten hlengths hnew, hmaxX]

theorem valueAt?_of_row? {b : Bitmap} {data : Bytes} {size : Size} {width x y : Nat}
    (hrow : b.row? y = some ⟨data, 0, Interval.clamp (size.w.toInt - 1) (-1) maxCoordinate⟩)
    (hwidth : size.w.toInt = width) (hx : x < width) :
    b.valueAt? x y = b.format.valueAt? data x := by
  have hsmall : size.w.toInt ≤ maxCoordinate := by
    have := size.w.toInt_lt
    unfold maxCoordinate
    omega
  have hinside : (0 : Int) ≤ x
      ∧ (x : Int) ≤ Interval.clamp (size.w.toInt - 1) (-1) maxCoordinate := by
    simp only [Interval.clamp]
    omega
  simp only [valueAt?, hrow, Option.bind_some]
  rw [if_pos hinside, Int.sub_zero, Int.toNat_natCast]

/-! ### Palettes -/

/-- The palette of a bitmap that is made of some colours. -/
def fittedColors (n : Nat) (colors : List Color) : List Color :=
  colors.take n ++ List.replicate (n - (colors.take n).length) .clear

theorem length_fittedColors (n : Nat) (colors : List Color) :
    (fittedColors n colors).length = n := by
  rw [fittedColors, List.length_append, List.length_replicate, List.length_take]
  omega

theorem getElem?_fittedColors {n i : Nat} (hi : i < n) (colors : List Color) :
    (fittedColors n colors)[i]? = some (colors[i]?.getD .clear) := by
  rw [fittedColors]
  by_cases hlt : i < colors.length
  · have htake : i < (colors.take n).length := by
      rw [List.length_take]
      omega
    rw [List.getElem?_append_left htake, List.getElem?_take_of_lt hi,
      List.getElem?_eq_getElem hlt, Option.getD_some]
  · have htake : (colors.take n).length = colors.length := by
      rw [List.length_take]
      omega
    rw [List.getElem?_append_right (by omega), List.getElem?_replicate_of_lt (by omega),
      List.getElem?_eq_none (Nat.not_lt.1 hlt), Option.getD_none]

theorem getElem?_indexedColors (h : Header) (hcolor : h.color = .indexed) (palette : List Rgba)
    (key : Option TransparentKey) (row : Array UInt8) (x n : Nat) (hn : n = Nat.pow 2 h.depth) :
    (fittedColors n (palette.map Color.ofRgba))[Png.packedValue row x h.depth]?
      = some (Color.ofRgba (Png.sample h palette key row x)) := by
  rw [hn, getElem?_fittedColors (Png.packedValue_lt row x h.depth), List.getElem?_map]
  simp only [Png.sample, hcolor]
  cases palette[Png.packedValue row x h.depth]? with
  | none => rfl
  | some c => rfl

theorem getElem?_grayLevels (h : Header) (hcolor : h.color = .gray) (palette : List Rgba)
    (key : Option TransparentKey) (row : Array UInt8) (x n : Nat) (hn : n = Nat.pow 2 h.depth) :
    (fittedColors n (Png.grayLevels h.depth key))[Png.packedValue row x h.depth]?
      = some (Color.ofRgba (Png.sample h palette key row x)) := by
  have hvalue := Png.packedValue_lt row x h.depth
  have hlevel : (Png.grayLevels h.depth key)[Png.packedValue row x h.depth]?
      = some (if key = some (.gray (Png.packedValue row x h.depth)) then .clear
          else .ofGray (Png.spread h.depth (Png.packedValue row x h.depth)) 255) := by
    rw [Png.grayLevels, List.getElem?_map, List.getElem?_range hvalue, Option.map_some]
  rw [hn, getElem?_fittedColors hvalue, hlevel, Option.getD_some]
  simp only [Png.sample, hcolor]
  split
  · rfl
  · rfl

/-! ### The two ways to make a bitmap of a frame -/

theorem getElem?_frameRows {frame : Frame} {height y : Nat} (hstride : 0 < frame.rowStride)
    (hlength : frame.data.length = frame.rowStride * height) (hy : y < height) :
    (frameRows frame)[y]? = some (frame.row y) := by
  rw [frameRows, Bytes.wholeGroups, hlength, Nat.mul_div_cancel_left _ hstride]
  exact Bytes.getElem?_groups hy

theorem length_of_mem_frameRows {frame : Frame} {row : Bytes} (h : row ∈ frameRows frame) :
    row.length = frame.rowStride :=
  Bytes.length_of_mem_wholeGroups h

section OfFrame

variable {frame : Frame} {size : Size} {b : Bitmap} {width : Nat}

theorem ofPackedRows_spec {format : PixelFormat} {colors : List Color}
    (hp : format.isPalettized = true) (h : ofPackedRows frame size format colors = .ok b) :
    b.format = format ∧ b.bounds = .ofSize size
      ∧ b.colors? = some (fittedColors format.paletteSize colors) := by
  obtain ⟨zeros, hzeros, rfl⟩ := map_eq_ok_iff.1 h
  have hformat := PixelFormat.ne_circular hp
  obtain ⟨-, hsame, hbounds, -, -, -⟩ := allocateBlank_fixed hformat hzeros
  exact ⟨hsame, hbounds, rfl⟩

theorem colorAt?_of_ofPackedRows {format : PixelFormat} {colors : List Color}
    (hp : format.isPalettized = true) (h : ofPackedRows frame size format colors = .ok b)
    (hwidth : size.w.toInt = width) (hstride : frame.rowStride = format.rowStride width)
    {row : Bytes} {x y : Nat} (hrow : (frameRows frame)[y]? = some row) (hx : x < width) :
    b.colorAt? x y
      = (fittedColors format.paletteSize colors)[
          Png.packedValue row.toArray x format.bitsPerPixel]? := by
  obtain ⟨hsame, -, hcolors⟩ := ofPackedRows_spec hp h
  obtain ⟨zeros, hzeros, hb⟩ := map_eq_ok_iff.1 h
  have hformat := PixelFormat.ne_circular hp
  obtain ⟨-, -, -, -, hsize, -⟩ := allocateBlank_fixed hformat hzeros
  have hfit : Bytes.fit zeros.rowSize.toNat row = row := by
    apply Bytes.fit_eq_self
    rw [length_of_mem_frameRows (List.mem_of_getElem? hrow), hstride, hsize, hwidth,
      Int.toNat_natCast]
  have hnew : b.row? y
      = some ⟨row, 0, Interval.clamp (size.w.toInt - 1) (-1) maxCoordinate⟩ := by
    have hrows := row?_of_newRows (b := b) (f := Bytes.fit zeros.rowSize.toNat) hformat hzeros
      (fun _ _ => Bytes.length_fit ..) ?_ ?_ hrow
    · rw [hfit] at hrows
      exact hrows
    · rw [← hb]
      exact fun _ h => nomatch h
    · rw [← hb]
  have hlength : row.length = format.rowStride width :=
    (length_of_mem_frameRows (List.mem_of_getElem? hrow)).trans hstride
  have hvalue : b.valueAt? x y = some (Png.packedValue row.toArray x format.bitsPerPixel) := by
    rw [valueAt?_of_row? hnew hwidth hx, hsame,
      PixelFormat.valueAt?_eq_packedValue hp hlength hx]
  rw [colorAt?, hvalue, Option.bind_some, hsame, hcolors]
  cases format with
  | mono | color | circular => cases hp
  | palette1 | palette2 | palette4 => rfl

theorem ofColors_spec {colorAt : Array UInt8 → Nat → Rgba}
    (h : ofColors frame size colorAt = .ok b) : b.format = .color ∧ b.bounds = .ofSize size := by
  obtain ⟨zeros, hzeros, rfl⟩ := map_eq_ok_iff.1 h
  obtain ⟨-, hsame, hbounds, -, -, -⟩ := allocateBlank_fixed (by decide) hzeros
  exact ⟨hsame, hbounds⟩

theorem colorAt?_of_ofColors {colorAt : Array UInt8 → Nat → Rgba}
    (h : ofColors frame size colorAt = .ok b) (hwidth : size.w.toInt = width) {row : Bytes}
    {x y : Nat} (hrow : (frameRows frame)[y]? = some row) (hx : x < width) :
    b.colorAt? x y = some (Color.ofRgba (colorAt row.toArray x)) := by
  obtain ⟨hsame, -⟩ := ofColors_spec h
  obtain ⟨zeros, hzeros, hb⟩ := map_eq_ok_iff.1 h
  obtain ⟨-, -, -, habsent, hsize, -⟩ := allocateBlank_fixed (by decide) hzeros
  have hnew := row?_of_newRows (b := b)
    (f := fun row => (List.range zeros.rowSize.toNat).map fun x =>
      (Color.ofRgba (colorAt row.toArray x)).argb)
    (by decide) hzeros (fun _ _ => by rw [List.length_map, List.length_range])
    (by rw [← hb]; show ∀ offset, zeros.palette ≠ _; rw [habsent]; exact fun _ h => nomatch h)
    (by rw [← hb]) hrow
  have hcount : x < zeros.rowSize.toNat := by
    rw [hsize, hwidth, Int.toNat_natCast]
    exact hx
  have hbyte : ((List.range zeros.rowSize.toNat).map fun x =>
      (Color.ofRgba (colorAt row.toArray x)).argb)[x]?
        = some (Color.ofRgba (colorAt row.toArray x)).argb := by
    rw [List.getElem?_map, List.getElem?_range hcount, Option.map_some]
  rw [colorAt?, valueAt?_of_row? hnew hwidth hx, hsame, PixelFormat.valueAt?_color hbyte,
    Option.bind_some]
  simp only [UInt8.ofNat_toNat]

end OfFrame

/-! ### Frames and files -/

/-- The format of the bitmap of a PNG: gray and indexed values of up to four bits stay packed. -/
def pngFormat (h : Header) : PixelFormat :=
  match h.color, PixelFormat.palettized? h.depth with
  | .indexed, some format | .gray, some format => format
  | _, _ => .color

theorem ofFrame_cases {h : Header} {palette : List Rgba} {key : Option TransparentKey}
    {frame : Frame} {size : Size} {platform : Platform} {b : Bitmap}
    (hcurrent : platform.compat = .current)
    (hb : ofFrame h palette key frame size platform = .ok b) :
    (∃ format colors, PixelFormat.palettized? h.depth = some format ∧ pngFormat h = format
        ∧ ofPackedRows frame size format colors = .ok b
        ∧ (h.color = .indexed ∧ colors = palette.map Color.ofRgba
          ∨ h.color = .gray ∧ colors = Png.grayLevels h.depth key))
      ∨ pngFormat h = .color ∧ ofColors frame size (Png.sample h palette key) = .ok b := by
  unfold ofFrame at hb
  unfold pngFormat
  rw [hcurrent] at hb
  cases hformat : PixelFormat.palettized? h.depth with
  | none =>
    cases hcolor : h.color <;> rw [hcolor, hformat] at hb <;> exact .inr ⟨rfl, hb⟩
  | some format =>
    cases hcolor : h.color with
    | indexed =>
      rw [hcolor, hformat] at hb
      exact .inl ⟨format, _, rfl, rfl, hb, .inl ⟨rfl, rfl⟩⟩
    | gray =>
      rw [hcolor, hformat] at hb
      exact .inl ⟨format, _, rfl, rfl, hb, .inr ⟨rfl, rfl⟩⟩
    | rgb | grayAlpha | rgba =>
      rw [hcolor, hformat] at hb
      exact .inr ⟨rfl, hb⟩

/-- Packed rows are as long in a PNG as in a palette format of the same depth. -/
theorem rowStride_eq {h : Header} (hcolor : h.color = .indexed ∨ h.color = .gray)
    {format : PixelFormat} (hformat : PixelFormat.palettized? h.depth = some format)
    (width : Nat) : h.rowStride width = format.rowStride width := by
  obtain ⟨hbits, hp⟩ := PixelFormat.of_palettized? hformat
  have hchannels : h.color.channels = 1 := by rcases hcolor with hc | hc <;> rw [hc] <;> rfl
  rw [Header.rowStride, Header.bitsPerPixel, hchannels, Nat.mul_one, ← hbits, Nat.mul_comm]
  cases format with
  | mono | color | circular => cases hp
  | palette1 | palette2 | palette4 => rfl

theorem colorAt?_of_ofFrame {h : Header} {palette : List Rgba} {key : Option TransparentKey}
    {frame : Frame} {size : Size} {platform : Platform} {b : Bitmap}
    (hcurrent : platform.compat = .current)
    (hb : ofFrame h palette key frame size platform = .ok b) (hwidth : size.w.toInt = h.width)
    (hstride : frame.rowStride = h.rowStride h.width) {row : Bytes} {x y : Nat}
    (hrow : (frameRows frame)[y]? = some row) (hx : x < h.width) :
    b.colorAt? x y = some (Color.ofRgba (Png.sample h palette key row.toArray x)) := by
  rcases ofFrame_cases hcurrent hb with ⟨format, colors, hformat, -, hpacked, hcolors⟩ | ⟨-, hall⟩
  · obtain ⟨hbits, hp⟩ := PixelFormat.of_palettized? hformat
    have hcolor : h.color = .indexed ∨ h.color = .gray :=
      hcolors.elim (fun hc => .inl hc.1) (fun hc => .inr hc.1)
    have hsize : format.paletteSize = Nat.pow 2 h.depth := by
      rw [PixelFormat.paletteSize, if_pos hp, hbits]
    rw [colorAt?_of_ofPackedRows hp hpacked hwidth
      (hstride.trans (rowStride_eq hcolor hformat h.width)) hrow hx, hbits]
    rcases hcolors with ⟨hindexed, rfl⟩ | ⟨hgray, rfl⟩
    · exact getElem?_indexedColors h hindexed palette key row.toArray x _ hsize
    · exact getElem?_grayLevels h hgray palette key row.toArray x _ hsize
  · exact colorAt?_of_ofColors hall hwidth hrow hx

theorem shape_of_ofFrame {h : Header} {palette : List Rgba} {key : Option TransparentKey}
    {frame : Frame} {size : Size} {platform : Platform} {b : Bitmap}
    (hcurrent : platform.compat = .current)
    (hb : ofFrame h palette key frame size platform = .ok b) :
    b.bounds = .ofSize size ∧ b.format = pngFormat h
      ∧ (b.format.isPalettized = true → ∃ colors, b.colors? = some colors
        ∧ colors.length = b.format.paletteSize
        ∧ (h.color = .indexed → ∀ i < b.format.paletteSize,
          colors[i]? = some ((palette[i]?.map Color.ofRgba).getD .clear))) := by
  rcases ofFrame_cases hcurrent hb with ⟨format, colors, hformat, hsame, hpacked, hcolors⟩
    | ⟨hsame, hall⟩
  · obtain ⟨-, hp⟩ := PixelFormat.of_palettized? hformat
    obtain ⟨hbformat, hbounds, hbcolors⟩ := ofPackedRows_spec hp hpacked
    refine ⟨hbounds, hbformat.trans hsame.symm, fun _ => ⟨_, hbcolors, ?_, ?_⟩⟩
    · rw [length_fittedColors, hbformat]
    · intro hindexed i hi
      rw [hbformat] at hi
      rcases hcolors with ⟨-, rfl⟩ | ⟨hgray, -⟩
      · rw [getElem?_fittedColors hi, List.getElem?_map]
      · cases hindexed.symm.trans hgray
  · obtain ⟨hbformat, hbounds⟩ := ofColors_spec hall
    refine ⟨hbounds, hbformat.trans hsame.symm, fun hp => ?_⟩
    rw [hbformat] at hp
    cases hp

section StillFiles

variable {i : Deflate.Inflater} (hi : i.ReadsOneStream)

include hi

theorem nextFrame_opened (f : Png.StillFile) :
    Png.Decoder.BySlices.nextFrame i f.opened = (.ok f.frame, f.done) := by
  have hmetadata : f.opened.readMetadata = (.ok (), f.loaded) := f.scanMetadata_opened
  have hopened : f.opened.stage ≠ .failed := by
    show Png.Stage.header ≠ .failed
    decide
  exact (Png.Decoder.nextFrame_of_ok hopened hmetadata rfl).trans (f.decodeNext_loaded hi)

theorem performAll_stillFile (f : Png.StillFile) :
    Png.Decoder.BySlices.performAll i (Png.Decoder.ofBytes f.toBytes) [.header, .metadata, .frame]
      = ([.header (.ok f.header), .metadata (.ok ()), .frame (.ok f.frame)], f.done) := by
  have hmetadata : f.opened.readMetadata = (.ok (), f.loaded) := f.scanMetadata_opened
  have hframe : Png.Decoder.BySlices.nextFrame i f.loaded = (.ok f.frame, f.done) :=
    (Png.Decoder.nextFrame_eq_decodeNext (.inl rfl) rfl).trans (f.decodeNext_loaded hi)
  simp only [Png.Decoder.BySlices.performAll, Png.Decoder.BySlices.perform, f.readHeader_ofBytes,
    hmetadata, hframe]

theorem ofPng_stillFile (f : Png.StillFile) {size : Size}
    (hsize : RawLayout.size? f.header.width f.header.height = some size) (platform : Platform) :
    BySlices.ofPng i f.toBytes platform
      = ofFrame f.header f.metadata.palette f.metadata.key f.frame size platform := by
  simp only [BySlices.ofPng, f.readHeader_ofBytes, hsize, nextFrame_opened hi]
  rfl

end StillFiles

/-- A frame with all rows of the image that a header describes. -/
structure IsWholeFrame (h : Header) (frame : Frame) : Prop where
  stride : frame.rowStride = h.rowStride h.width
  stride_pos : 0 < frame.rowStride
  length : frame.data.length = frame.rowStride * h.height

/-- The bitmap of a PNG is made of its first frame, as the decoder reports it. -/
theorem exists_firstFrame {i : Deflate.Inflater} {bytes : Bytes} {platform : Platform} {b : Bitmap}
    (h : BySlices.ofPng i bytes platform = .ok b) :
    ∃ (header : Header) (frame : Frame) (d : Png.Decoder) (size : Size),
      Png.Decoder.BySlices.performAll i (Png.Decoder.ofBytes bytes) [.header, .metadata, .frame]
          = ([.header (.ok header), .metadata (.ok ()), .frame (.ok frame)], d)
        ∧ IsWholeFrame header frame ∧ size.w.toInt = header.width ∧ size.h.toInt = header.height
        ∧ ofFrame header d.metadata.palette d.metadata.key frame size platform = .ok b := by
  simp only [BySlices.ofPng] at h
  split at h
  · cases h
  · rename_i header opened hheader
    split at h
    · cases h
    · rename_i size hsize
      split at h
      · cases h
      · rename_i frame d hframe
        obtain ⟨hwidth, hheight⟩ := RawLayout.size?_eq_some hsize
        obtain ⟨haccepted, -, hframeHeight, hstride, hlength⟩ :=
          Png.Decoder.firstFrame_geometry hheader hframe
        have hcoherent : opened.IsCoherent := by
          have hperform := Png.Decoder.isCoherent_performAll i
            (Png.Decoder.isCoherent_ofBytes bytes) [.header]
          simp only [Png.Decoder.BySlices.performAll, Png.Decoder.BySlices.perform,
            hheader] at hperform
          exact hperform
        refine ⟨header, frame, d, size, ?_, ⟨hstride, ?_, ?_⟩, hwidth, hheight, h⟩
        · rw [Png.Decoder.BySlices.performAll, Png.Decoder.BySlices.perform]
          simp only [hheader, Png.Decoder.performAll_of_nextFrame hcoherent hframe]
        · rw [hstride]
          exact haccepted.rowStride_pos haccepted.width_pos
        · rw [hlength, hframeHeight]

/-- Every pixel of the bitmap of a PNG shows the colour that it has in the first frame, whichever
way the bitmap holds it and whatever the inflater is. The palette has an entry for each value;
beyond the entries of the file they are transparent. -/
theorem colors_of_ofPng {i : Deflate.Inflater} {bytes : Bytes} {platform : Platform} {b : Bitmap}
    (h : BySlices.ofPng i bytes platform = .ok b) (hcurrent : platform.compat = .current) :
    ∃ header frame d,
      Png.Decoder.BySlices.performAll i (Png.Decoder.ofBytes bytes) [.header, .metadata, .frame]
          = ([.header (.ok header), .metadata (.ok ()), .frame (.ok frame)], d)
        ∧ b.bounds.origin = ⟨0, 0⟩ ∧ b.bounds.size.w.toInt = header.width
        ∧ b.bounds.size.h.toInt = header.height
        ∧ (∀ x < header.width, ∀ y < header.height,
          b.colorAt? x y = some (Color.ofRgba
            (Png.sample header d.metadata.palette d.metadata.key (frame.row y).toArray x)))
        ∧ b.format = pngFormat header
        ∧ (b.format.isPalettized = true → ∃ colors, b.colors? = some colors
          ∧ colors.length = b.format.paletteSize
          ∧ (header.color = .indexed → ∀ i < b.format.paletteSize,
            colors[i]? = some ((d.metadata.palette[i]?.map Color.ofRgba).getD .clear))) := by
  obtain ⟨header, frame, d, size, hrun, hframe, hwidth, hheight, hb⟩ := exists_firstFrame h
  obtain ⟨hbounds, hformat, hcolors⟩ := shape_of_ofFrame hcurrent hb
  refine ⟨header, frame, d, hrun, ?_, ?_, ?_, ?_, hformat, hcolors⟩
  · rw [hbounds]
    rfl
  · rw [hbounds]
    exact hwidth
  · rw [hbounds]
    exact hheight
  · intro x hx y hy
    have hrow := getElem?_frameRows hframe.stride_pos hframe.length hy
    exact colorAt?_of_ofFrame hcurrent hb hwidth hframe.stride hrow hx

/-- Three colours of a file whose palette has two: the second entry, and one beyond the last. -/
theorem colors_of_ofPng_smallFile :
    ∃ b, BySlices.ofPng Deflate.Inflater.rereading Png.StillFile.smallFile.toBytes .standard = .ok b
      ∧ b.format = .palette4
      ∧ b.colorAt? 0 0 = some (.ofRgba ⟨0, 255, 0, 255⟩) ∧ b.colorAt? 1 0 = some .clear := by
  have hsize : RawLayout.size? 3 2 = some ⟨3, 2⟩ := by decide
  have hi := Deflate.Inflater.readsOneStream_rereading
  obtain ⟨b, h⟩ : ∃ b, BySlices.ofPng Deflate.Inflater.rereading
      Png.StillFile.smallFile.toBytes .standard = .ok b :=
    ⟨_, ofPng_stillFile hi Png.StillFile.smallFile hsize .standard⟩
  obtain ⟨header, frame, d, hrun, -, -, -, hpixels, hformat, -⟩ := colors_of_ofPng h rfl
  rw [performAll_stillFile hi] at hrun
  cases hrun
  exact ⟨b, h, hformat, hpixels 0 (by decide) 0 (by decide), hpixels 1 (by decide) 0 (by decide)⟩

end Bitmap

end DialGraphics
