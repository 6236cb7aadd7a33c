import DialGraphics.Proofs.Bitmap.CircularTable
import DialGraphics.Proofs.Bitmap.RawFile
import DialGraphics.Proofs.Bytes.Words

/-!
# Accepted raw files

A raw file is accepted exactly if its header is one of a bitmap that the platform can show, and all
pixels and the palette are there. What the header has to be like is said of the words at their
places.
-/

namespace DialGraphics

theorem PixelFormat.ofNumber?_eq_some_iff {n : Nat} {format : PixelFormat} :
    ofNumber? n = some format ↔ n = format.number := by
  constructor
  · intro h
    unfold ofNumber? at h
    split at h <;> cases h <;> rfl
  · rintro rfl
    cases format <;> rfl

theorem PixelFormat.paletteSize_le (format : PixelFormat) : format.paletteSize ≤ 16 := by
  cases format <;> decide

namespace RawLayout

theorem fields?_eq (bytes : Bytes) :
    fields? bytes
      = if 12 ≤ bytes.length then
          some (bytes.wordAt 0, bytes.wordAt 2, bytes.wordAt 8, bytes.wordAt 10)
        else none := by
  simp only [fields?, Bytes.word16?_eq, Bytes.splitAt?_eq, Option.bind_eq_bind, guarded_bind,
    List.length_drop, Bytes.wordAt_drop]
  by_cases h : 12 ≤ bytes.length
  · rw [if_pos h, if_pos (by omega), if_pos (by omega), if_pos (by omega), if_pos (by omega),
      if_pos (by omega)]
    rfl
  · rw [if_neg h]
    repeat' split
    all_goals first | rfl | omega

/-! ### Headers -/

/-- Whether rows of a size hold a width. Rows of a disk have no size of their own, and need an area.
-/
def HasRows (format : PixelFormat) (rowSize width height : Nat) : Prop :=
  match format with
  | .circular => 0 < width ∧ 0 < height
  | _ => format.rowStride width ≤ rowSize ∧ (format = .mono → rowSize % 4 = 0)

/-- The number of pixel bytes in rows of a size, or in the chords of a disk. -/
def storedLength (format : PixelFormat) (rowSize width height : Nat) : Nat :=
  match format with
  | .circular => ((List.range height).map (CircularRow.chord width)).sum
  | _ => rowSize * height

theorem hasRows_fixed_iff {format : PixelFormat} (hformat : format ≠ .circular)
    {rowSize width height : Nat} :
    HasRows format rowSize width height
      ↔ format.rowStride width ≤ rowSize ∧ (format = .mono → rowSize % 4 = 0) := by
  unfold HasRows
  split
  · exact absurd rfl hformat
  · exact Iff.rfl

/-- A row is long enough in bits, and whole words if it has to be. -/
theorem hasRows_iff_bits {format : PixelFormat} (hformat : format ≠ .circular)
    {rowSize width height : Nat} :
    HasRows format rowSize width height
      ↔ ¬ rowSize * 8 < format.bitsPerPixel * width ∧ ¬ (format = .mono ∧ rowSize % 4 ≠ 0) := by
  rw [hasRows_fixed_iff hformat]
  cases format with
  | circular => exact absurd rfl hformat
  | mono =>
    simp only [PixelFormat.rowStride, PixelFormat.bitsPerPixel, true_implies, true_and]
    omega
  | _ =>
    simp only [PixelFormat.rowStride, PixelFormat.bitsPerPixel, reduceCtorEq, false_implies,
      false_and, not_false_eq_true, and_true]
    omega

theorem storedLength_fixed {format : PixelFormat} (hformat : format ≠ .circular)
    (rowSize width height : Nat) : storedLength format rowSize width height = rowSize * height := by
  unfold storedLength
  split
  · exact absurd rfl hformat
  · rfl

theorem storedLength_le (format : PixelFormat) {rowSize width height : Nat}
    (hrowSize : rowSize < 65536) (hwidth : width ≤ 32767) (hheight : height ≤ 32767) :
    storedLength format rowSize width height ≤ 65536 * 32767 := by
  by_cases hformat : format = .circular
  · subst hformat
    have hchords := CircularRow.sum_chord_le width height
    exact Nat.le_trans hchords (Nat.mul_le_mul (by omega) hheight)
  · rw [storedLength_fixed hformat]
    exact Nat.mul_le_mul (Nat.le_of_lt hrowSize) hheight

/-- A header of a bitmap in a format that the platform can show. -/
structure HasHeader (bytes : Bytes) (platform : Platform) (format : PixelFormat) : Prop where
  length : 12 ≤ bytes.length
  number : (bytes.wordAt 2).toNat / 2 % 8 = format.number
  legacy : platform.compat = .legacy → format = .mono
  width_le : (bytes.wordAt 8).toNat ≤ 32767
  height_le : (bytes.wordAt 10).toNat ≤ 32767
  rows : HasRows format (bytes.wordAt 0).toNat (bytes.wordAt 8).toNat (bytes.wordAt 10).toNat

/-- A raw file of which nothing is missing. -/
structure IsAcceptable (bytes : Bytes) (platform : Platform) (format : PixelFormat) : Prop
    extends HasHeader bytes platform format where
  covers : 12 + storedLength format (bytes.wordAt 0).toNat (bytes.wordAt 8).toNat
      (bytes.wordAt 10).toNat + format.paletteSize ≤ bytes.length

/-- What a header of the given format says. -/
def ofHeader (bytes : Bytes) (format : PixelFormat) : RawLayout where
  format
  version := versionOfFlags (bytes.wordAt 2)
  rowSize := bytes.wordAt 0
  size := ⟨Int16.ofNat (bytes.wordAt 8).toNat, Int16.ofNat (bytes.wordAt 10).toNat⟩
  pixelLength := storedLength format (bytes.wordAt 0).toNat (bytes.wordAt 8).toNat
    (bytes.wordAt 10).toNat
  paletteLength := format.paletteSize

theorem size?_eq_some_iff {width height : Nat} {size : Size} :
    size? width height = some size
      ↔ (width ≤ 32767 ∧ height ≤ 32767) ∧ size = ⟨Int16.ofNat width, Int16.ofNat height⟩ := by
  unfold size? maxSide
  split
  · rename_i h
    simp only [reduceCtorEq, false_iff]
    omega
  · rename_i h
    rw [Option.some.injEq, eq_comm, and_iff_right (by omega)]

/-- The rows of a disk need the area that a table of rows needs. -/
theorem table_of_hasRows {size : Size} {rowSize width height : Nat}
    (hw : size.w.toInt = width) (hh : size.h.toInt = height)
    (h : HasRows .circular rowSize width height) :
    ∃ rows, CircularRow.table size = .ok rows ∧ CircularRow.storedSize rows
      = storedLength .circular rowSize width height := by
  have hempty : size.isEmpty = false := by
    rw [Size.isEmpty_eq_false_iff, hw, hh]
    exact ⟨Int.natCast_pos.2 h.1, Int.natCast_pos.2 h.2⟩
  have htable : ∃ rows, CircularRow.table size = .ok rows := by
    unfold CircularRow.table
    rw [if_neg (Bool.eq_false_iff.1 hempty)]
    exact ⟨_, rfl⟩
  obtain ⟨rows, hrows⟩ := htable
  refine ⟨rows, hrows, ?_⟩
  rw [CircularRow.storedSize_table hrows, hw, hh, Int.toNat_natCast, Int.toNat_natCast]
  rfl

section

variable {format : PixelFormat} {size : Size} {rowSize width height n : Nat}

theorem pixelLength?_circular_eq_ok_iff (hw : size.w.toInt = width) (hh : size.h.toInt = height) :
    pixelLength? .circular rowSize size = .ok n
      ↔ HasRows .circular rowSize width height
        ∧ n = storedLength .circular rowSize width height := by
  constructor
  · intro h
    obtain ⟨rows, hrows, rfl⟩ := pixelLength?_circular h
    obtain ⟨hwide, htall⟩ := Size.isEmpty_eq_false_iff.1 (CircularRow.isEmpty_of_table hrows)
    have harea : HasRows .circular rowSize width height := ⟨by omega, by omega⟩
    obtain ⟨rows', hrows', hstored⟩ := table_of_hasRows hw hh harea
    cases hrows'.symm.trans hrows
    exact ⟨harea, hstored⟩
  · rintro ⟨hrows, rfl⟩
    obtain ⟨rows, htable, hstored⟩ := table_of_hasRows hw hh hrows
    have hempty := Bool.eq_false_iff.1 (CircularRow.isEmpty_of_table htable)
    simp only [pixelLength?]
    rw [if_neg hempty, htable, ← hstored]
    rfl

theorem pixelLength?_eq_ok_iff (hw : size.w.toInt = width) (hh : size.h.toInt = height) :
    pixelLength? format rowSize size = .ok n
      ↔ HasRows format rowSize width height ∧ n = storedLength format rowSize width height := by
  by_cases hformat : format = .circular
  · rw [hformat]
    exact pixelLength?_circular_eq_ok_iff hw hh
  · have hwidth : size.w.toInt.toNat = width := by rw [hw, Int.toNat_natCast]
    have hheight : size.h.toInt.toNat = height := by rw [hh, Int.toNat_natCast]
    rw [hasRows_iff_bits hformat, storedLength_fixed hformat]
    unfold pixelLength?
    split
    · exact absurd rfl hformat
    · rw [hwidth, hheight]
      split
      · rename_i hshort
        simp [hshort]
      · rename_i hlong
        split
        · rename_i hpartial
          simp [hpartial]
        · rename_i hwords
          simp only [Except.ok.injEq, hlong, hwords, not_false_eq_true, and_self, true_and]
          exact eq_comm

end

theorem parse_eq_ok_iff {bytes : Bytes} {platform : Platform} {l : RawLayout} :
    parse bytes platform = .ok l
      ↔ ∃ format, HasHeader bytes platform format ∧ l = ofHeader bytes format := by
  constructor
  · intro h
    obtain ⟨⟨rowSize, flags, width, height⟩, hfields, h⟩ := bind_eq_ok_iff.1 h
    obtain ⟨format, hformat, h⟩ := bind_eq_ok_iff.1 h
    have hfields := orFail_eq_ok_iff.1 hfields
    rw [fields?_eq] at hfields
    split at hfields
    · rename_i hlength
      cases hfields
      simp only at h
      split at h
      · cases h
      · rename_i hlegacy
        obtain ⟨size, hsize, h⟩ := bind_eq_ok_iff.1 h
        obtain ⟨pixelLength, hpixels, h⟩ := bind_eq_ok_iff.1 h
        have hsize := orFail_eq_ok_iff.1 hsize
        obtain ⟨hw, hh⟩ := size?_eq_some hsize
        obtain ⟨hrows, rfl⟩ := (pixelLength?_eq_ok_iff hw hh).1 hpixels
        obtain ⟨⟨hwidth, hheight⟩, rfl⟩ := size?_eq_some_iff.1 hsize
        have hnumber := PixelFormat.ofNumber?_eq_some_iff.1 (orFail_eq_ok_iff.1 hformat)
        cases h
        refine ⟨format, ⟨hlength, hnumber, ?_, hwidth, hheight, hrows⟩, rfl⟩
        intro hcompat
        exact Decidable.byContradiction fun hother => hlegacy ⟨hcompat, hother⟩
    · cases hfields
  · rintro ⟨format, h, rfl⟩
    have hfields := fields?_eq bytes
    rw [if_pos h.length] at hfields
    have hformat : formatOfFlags? (bytes.wordAt 2) = some format :=
      PixelFormat.ofNumber?_eq_some_iff.2 h.number
    have hsize := size?_eq_some_iff.2 ⟨⟨h.width_le, h.height_le⟩, rfl⟩
    obtain ⟨hw, hh⟩ := size?_eq_some hsize
    have hpixels := (pixelLength?_eq_ok_iff hw hh).2 ⟨h.rows, rfl⟩
    have hlegacy : ¬ (platform.compat = .legacy ∧ format ≠ .mono) :=
      fun hc => hc.2 (h.legacy hc.1)
    unfold parse
    rw [hfields]
    simp only [orFail_some, bind, Except.bind, hformat, if_neg hlegacy, hsize, hpixels]
    rfl

end RawLayout

namespace Bitmap

open RawLayout (HasHeader IsAcceptable ofHeader)

theorem exists_ofLayout {bytes : Bytes} {platform : Platform} {format : PixelFormat}
    (h : HasHeader bytes platform format) (pixels : PixelSource) :
    ∃ b, ofLayout pixels (ofHeader bytes format) = .ok b := by
  by_cases hformat : format = .circular
  · have hrows := h.rows
    rw [hformat] at hrows ⊢
    have hsize := RawLayout.size?_eq_some_iff.2 ⟨⟨h.width_le, h.height_le⟩, rfl⟩
    obtain ⟨hw, hh⟩ := RawLayout.size?_eq_some hsize
    obtain ⟨rows, htable, -⟩ := RawLayout.table_of_hasRows hw hh hrows
    simp only [ofLayout, ofHeader, htable]
    exact ⟨_, rfl⟩
  · have hother : (ofHeader bytes format).format ≠ .circular := hformat
    exact ⟨_, ofLayout_fixed hother⟩

theorem exists_ofRaw_iff {bytes : Bytes} {platform : Platform} :
    (∃ b, ofRaw bytes platform = .ok b) ↔ ∃ format, IsAcceptable bytes platform format := by
  constructor
  · rintro ⟨b, h⟩
    obtain ⟨l, hl, h⟩ := bind_eq_ok_iff.1 h
    obtain ⟨format, hheader, rfl⟩ := RawLayout.parse_eq_ok_iff.1 hl
    simp only at h
    split at h
    · cases h
    · rename_i hlong
      exact ⟨format, hheader, Nat.le_of_not_lt hlong⟩
  · rintro ⟨format, h⟩
    obtain ⟨b, hb⟩ := exists_ofLayout h.toHasHeader (.borrowed (bytes.drop RawLayout.headerSize))
    have hparse := RawLayout.parse_eq_ok_iff.2 ⟨format, h.toHasHeader, rfl⟩
    have hlong : ¬ bytes.length < (ofHeader bytes format).totalLength := Nat.not_lt.2 h.covers
    refine ⟨b, ?_⟩
    unfold ofRaw
    rw [hparse]
    simp only [bind, Except.bind, if_neg hlong]
    exact hb

end Bitmap

end DialGraphics
