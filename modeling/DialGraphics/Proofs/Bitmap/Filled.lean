import DialGraphics.Proofs.Bitmap.Acceptance
import DialGraphics.Proofs.Bitmap.PngColors
import Mathlib.Logic.Relation

/-!
# Bitmaps with contents of their own

A blank bitmap, and one that is decoded from a PNG, has its pixels and its palette to itself.
Writing pixels and colours into it changes these and nothing else, so that it still has as many as
its size and its format ask for.
-/

namespace DialGraphics.Bitmap

open RawLayout (HasRows hasRows_fixed_iff storedLength storedLength_fixed)

/-! ### Blank storage -/

/-- The table of rows that a bitmap of a format has, if it has one. -/
def rowsFor (format : PixelFormat) (size : Size) : Except DecodeError (Option (List CircularRow)) :=
  match format with
  | .circular => (CircularRow.table size).map some
  | _ => .ok none

theorem rowsFor_fixed {format : PixelFormat} (h : format ≠ .circular) (size : Size) :
    rowsFor format size = .ok none := by
  unfold rowsFor
  split
  · exact absurd rfl h
  · rfl

/-- The shape of a bitmap that is made in memory, whatever its contents. -/
structure HasShape (size : Size) (format : PixelFormat) (b : Bitmap) : Prop where
  format_eq : b.format = format
  version : b.version = 1
  bounds : b.bounds = .ofSize size
  rows : rowsFor format size = .ok b.rows
  hasRows : HasRows format b.rowSize.toNat size.w.toInt.toNat size.h.toInt.toNat

/-- A palette of the bitmap's own with an entry for every pixel value, where the format has one. -/
def HasColors (format : PixelFormat) : PaletteSource → Prop
  | .absent => format.isPalettized = false
  | .given (.owned colors) => format.isPalettized = true ∧ colors.length = format.paletteSize
  | _ => False

/-- A bitmap that is made in memory, with as many pixels and colours as its shape asks for. -/
structure IsFilled (size : Size) (format : PixelFormat) (b : Bitmap) : Prop
    extends HasShape size format b where
  nonneg : size.isNegative = false
  pixels : ∃ bytes, b.pixels = .owned bytes ∧ bytes.length
    = storedLength format b.rowSize.toNat size.w.toInt.toNat size.h.toInt.toNat
  colors : HasColors format b.palette

variable {size : Size} {format : PixelFormat} {zeros b b' : Bitmap}

theorem hasShape_of_allocateBlank (h : allocateBlank size format = .ok b) :
    HasShape size format b := by
  by_cases hformat : format = .circular
  · subst hformat
    obtain ⟨rows, hrows, h⟩ := bind_eq_ok_iff.1 h
    obtain ⟨bytes, -, h⟩ := bind_eq_ok_iff.1 h
    cases h
    obtain ⟨hwide, htall⟩ := Size.isEmpty_eq_false_iff.1 (CircularRow.isEmpty_of_table hrows)
    refine ⟨rfl, rfl, rfl, ?_, ⟨by omega, by omega⟩⟩
    show (CircularRow.table size).map some = _
    rw [hrows]
    rfl
  · obtain ⟨hrows, hsame, hbounds, -, hstride, -⟩ := allocateBlank_fixed hformat h
    have hversion : b.version = 1 := by
      unfold allocateBlank at h
      split at h
      · exact absurd rfl hformat
      · obtain ⟨bytes, -, h⟩ := bind_eq_ok_iff.1 h
        cases h
        rfl
    refine ⟨hsame, hversion, hbounds, ?_, ?_⟩
    · rw [hrows]
      exact rowsFor_fixed hformat size
    · rw [hasRows_fixed_iff hformat, hstride]
      refine ⟨Nat.le_refl _, ?_⟩
      rintro rfl
      simp only [PixelFormat.rowStride, Nat.mul_mod_left]

theorem owned_of_allocateBlank (h : allocateBlank size format = .ok b) :
    ∃ bytes, b.pixels = .owned bytes ∧ bytes.length
      = storedLength format b.rowSize.toNat size.w.toInt.toNat size.h.toInt.toNat := by
  by_cases hformat : format = .circular
  · subst hformat
    obtain ⟨rows, hrows, h⟩ := bind_eq_ok_iff.1 h
    obtain ⟨bytes, hbytes, h⟩ := bind_eq_ok_iff.1 h
    cases h
    refine ⟨bytes, rfl, ?_⟩
    rw [length_of_allocate hbytes, CircularRow.storedSize_table hrows]
    rfl
  · obtain ⟨-, -, -, -, -, hlength⟩ := allocateBlank_fixed hformat h
    have howned : ∃ bytes, b.pixels = .owned bytes := by
      unfold allocateBlank at h
      split at h
      · exact absurd rfl hformat
      · obtain ⟨bytes, -, h⟩ := bind_eq_ok_iff.1 h
        cases h
        exact ⟨bytes, rfl⟩
    obtain ⟨bytes, hbytes⟩ := howned
    rw [hbytes] at hlength
    exact ⟨bytes, hbytes, hlength.trans (storedLength_fixed hformat ..).symm⟩

/-! ### Fresh bitmaps -/

/-- A bitmap as it is made in memory, blank or from a PNG. -/
inductive IsFresh : Bitmap → Prop
  | blank {size format platform b} (h : Bitmap.blank size format platform = .ok b) : IsFresh b
  | png {bytes platform b} (h : Bitmap.ofPng bytes platform = .ok b) : IsFresh b

theorem isFilled_of_blank {platform : Platform} (h : blank size format platform = .ok b) :
    IsFilled size format b := by
  simp only [blank] at h
  split at h
  · rename_i hsupported
    have hsize := isNegative_of_isSupported hsupported
    obtain ⟨zeros, hzeros, hb⟩ := map_eq_ok_iff.1 h
    have hshape := hasShape_of_allocateBlank hzeros
    have howned := owned_of_allocateBlank hzeros
    split at hb
    · rename_i hp
      rw [← hb]
      exact ⟨⟨hshape.format_eq, hshape.version, hshape.bounds, hshape.rows, hshape.hasRows⟩, hsize,
        howned, hp, List.length_replicate⟩
    · rename_i hp
      rw [← hb]
      refine ⟨hshape, hsize, howned, ?_⟩
      rw [absent_of_allocateBlank hzeros]
      exact Bool.eq_false_iff.2 hp
  · cases h

/-- Other rows of the same length in blank storage, with the colours of the format. -/
theorem isFilled_of_newRows {rows : List Bytes} {f : Bytes → Bytes} (hformat : format ≠ .circular)
    (hsize : size.isNegative = false) (hzeros : allocateBlank size format = .ok zeros)
    (hcount : rows.length = size.h.toInt.toNat)
    (hlength : ∀ row ∈ rows, (f row).length = zeros.rowSize.toNat)
    (hcolors : HasColors format b.palette)
    (hb : b = { zeros with pixels := .owned (rows.map f).flatten, palette := b.palette }) :
    IsFilled size format b := by
  have hshape := hasShape_of_allocateBlank hzeros
  have hpixels : (rows.map f).flatten.length
      = storedLength format zeros.rowSize.toNat size.w.toInt.toNat size.h.toInt.toNat := by
    rw [Bytes.length_flatten_map hlength, hcount, storedLength_fixed hformat]
  rw [hb]
  exact ⟨⟨hshape.format_eq, hshape.version, hshape.bounds, hshape.rows, hshape.hasRows⟩, hsize,
    ⟨_, rfl, hpixels⟩, hcolors⟩

section

variable {frame : Png.Frame}

theorem isFilled_of_ofPackedRows {colors : List Color} (hp : format.isPalettized = true)
    (hsize : size.isNegative = false) (hcount : (frameRows frame).length = size.h.toInt.toNat)
    (h : ofPackedRows frame size format colors = .ok b) : IsFilled size format b := by
  obtain ⟨zeros, hzeros, rfl⟩ := map_eq_ok_iff.1 h
  refine isFilled_of_newRows (PixelFormat.ne_circular hp) hsize hzeros hcount ?_ ?_ rfl
  · intro row _
    exact Bytes.length_fit ..
  · exact ⟨hp, length_fittedColors ..⟩

theorem isFilled_of_ofColors {colorAt : Array UInt8 → Nat → Rgba} (hsize : size.isNegative = false)
    (hcount : (frameRows frame).length = size.h.toInt.toNat)
    (h : ofColors frame size colorAt = .ok b) : IsFilled size .color b := by
  obtain ⟨zeros, hzeros, rfl⟩ := map_eq_ok_iff.1 h
  refine isFilled_of_newRows (by decide) hsize hzeros hcount ?_ ?_ rfl
  · intro row _
    rw [List.length_map, List.length_range]
  · show HasColors .color zeros.palette
    rw [absent_of_allocateBlank hzeros]
    exact rfl

theorem isFilled_of_ofLight {colorAt : Array UInt8 → Nat → Rgba} (hsize : size.isNegative = false)
    (hcount : (frameRows frame).length = size.h.toInt.toNat)
    (h : ofLight frame size colorAt = .ok b) : IsFilled size .mono b := by
  obtain ⟨zeros, hzeros, rfl⟩ := map_eq_ok_iff.1 h
  refine isFilled_of_newRows (by decide) hsize hzeros hcount ?_ ?_ rfl
  · intro row _
    rw [List.length_map, List.length_range]
  · show HasColors .mono zeros.palette
    rw [absent_of_allocateBlank hzeros]
    exact rfl

theorem exists_isFilled_of_ofFrame {h : Png.Header} {palette : List Rgba}
    {key : Option Png.TransparentKey} {platform : Platform} (hsize : size.isNegative = false)
    (hcount : (frameRows frame).length = size.h.toInt.toNat)
    (hb : ofFrame h palette key frame size platform = .ok b) :
    ∃ format, IsFilled size format b := by
  unfold ofFrame at hb
  split at hb
  · exact ⟨.mono, isFilled_of_ofLight hsize hcount hb⟩
  · rename_i hformat
    exact ⟨_, isFilled_of_ofPackedRows (PixelFormat.of_palettized? hformat).2 hsize hcount hb⟩
  · rename_i hformat
    exact ⟨_, isFilled_of_ofPackedRows (PixelFormat.of_palettized? hformat).2 hsize hcount hb⟩
  · exact ⟨.color, isFilled_of_ofColors hsize hcount hb⟩

end

theorem IsFresh.exists_isFilled (h : IsFresh b) : ∃ size format, IsFilled size format b := by
  cases h with
  | blank h => exact ⟨_, _, isFilled_of_blank h⟩
  | png h =>
    obtain ⟨_, _, _, _, size, hsize, hcount, hb⟩ := exists_ofFrame_of_ofPng h
    obtain ⟨format, hfilled⟩ := exists_isFilled_of_ofFrame hsize hcount hb
    exact ⟨size, format, hfilled⟩

/-! ### Writing -/

inductive IsWrite (b : Bitmap) : Bitmap → Prop
  | pixel {pos value b'} (h : b.write? pos value = some b') : IsWrite b b'
  | color {index color b'} (h : b.writeColor? index color = some b') : IsWrite b b'

theorem IsFilled.write? {pos : Nat} {value : UInt8} (hb : IsFilled size format b)
    (h : b.write? pos value = some b') : IsFilled size format b' := by
  obtain ⟨bytes, howned, hlength⟩ := hb.pixels
  unfold Bitmap.write? at h
  split at h
  · cases h
  · split at h
    · cases h
      refine ⟨⟨hb.format_eq, hb.version, hb.bounds, hb.rows, hb.hasRows⟩, hb.nonneg,
        ⟨bytes.set pos value, ?_, ?_⟩, hb.colors⟩
      · show b.pixels.replace (b.pixels.toBytes.set pos value) = _
        rw [howned]
        rfl
      · rw [List.length_set]
        exact hlength
    · cases h

theorem IsFilled.writeColor? {index : Nat} {color : Color} (hb : IsFilled size format b)
    (h : b.writeColor? index color = some b') : IsFilled size format b' := by
  have hcolors := hb.colors
  unfold Bitmap.writeColor? writableColors? at h
  cases hpalette : b.palette with
  | absent =>
    rw [hpalette] at h
    cases h
  | trailing offset =>
    rw [hpalette] at hcolors
    exact hcolors.elim
  | given palette =>
    cases palette with
    | borrowed colors =>
      rw [hpalette] at h
      cases h
    | owned colors =>
      rw [hpalette] at hcolors
      rw [hpalette] at h
      simp only at h
      split at h
      · cases h
        refine ⟨⟨hb.format_eq, hb.version, hb.bounds, hb.rows, hb.hasRows⟩, hb.nonneg, hb.pixels,
          hcolors.1, ?_⟩
        rw [List.length_set]
        exact hcolors.2
      · cases h

theorem IsFilled.of_writes (hb : IsFilled size format b)
    (hwrites : Relation.ReflTransGen IsWrite b b') : IsFilled size format b' := by
  induction hwrites with
  | refl => exact hb
  | tail _ hwrite ih =>
    cases hwrite with
    | pixel h => exact ih.write? h
    | color h => exact ih.writeColor? h

end DialGraphics.Bitmap
