import DialGraphics.Proofs.Bitmap.Histories
import DialGraphics.Proofs.Bitmap.PaletteForm

/-!
# Row sizes

The row size of a bitmap that is made in memory is measured. A raw bitmap has one in its header, and
other storage comes with one. Where there is a table of rows it should be zero, but a raw bitmap
keeps what its header says.
-/

namespace DialGraphics

/-- Where the row size of a bitmap was decided. -/
inductive RowSizeOrigin
  | measured (rowSize : UInt16)
  | header (rowSize : UInt16)
  /-- Declared for other storage. -/
  | given (rowSize : UInt16)

namespace RowSizeOrigin

def declared : RowSizeOrigin → UInt16
  | .measured rowSize | .header rowSize | .given rowSize => rowSize

/-- The row size that a bitmap has in the end. Only that of a header outlasts a table of rows. -/
def settled (origin : RowSizeOrigin) (format : PixelFormat) : UInt16 :=
  match origin, format with
  | .header rowSize, _ => rowSize
  | .measured _, .circular | .given _, .circular => 0
  | .measured rowSize, _ | .given rowSize, _ => rowSize

theorem settled_circular {origin : RowSizeOrigin} :
    origin.settled .circular = 0 ↔ ∀ rowSize, origin = .header rowSize → rowSize = 0 := by
  cases origin with
  | measured n => exact ⟨(fun _ _ h => nomatch h), fun _ => rfl⟩
  | given n => exact ⟨(fun _ _ h => nomatch h), fun _ => rfl⟩
  | header n =>
    constructor
    · rintro h _ ⟨⟩
      exact h
    · exact fun h => h n rfl

theorem settled_fixed {origin : RowSizeOrigin} {format : PixelFormat} (h : format ≠ .circular) :
    origin.settled format = origin.declared := by
  cases origin <;> cases format <;> first | rfl | exact absurd rfl h

end RowSizeOrigin

namespace Bitmap

/-! ### Measured row sizes -/

/-- The fewest bytes that hold the columns up to the right edge of the bounds. -/
def measuredRowSize (b : Bitmap) : UInt16 :=
  UInt16.ofNat (b.format.rowStride b.bounds.maxX.toNat)

/-- A bitmap as it is made in memory. -/
inductive IsInMemory : Bitmap → Prop
  | blank {size format platform b} (h : Bitmap.blank size format platform = .ok b) : IsInMemory b
  | blankWithPalette {size format palette platform b}
      (h : Bitmap.blankWithPalette size format palette platform = .ok b) : IsInMemory b
  | png {bytes platform b} (h : Bitmap.ofPng bytes platform = .ok b) : IsInMemory b
  | palettized {source b} (hs : Reachable source) (h : source.toPalettized = .ok b) : IsInMemory b

/-- A bitmap together with where its row size was decided: when it was made, or when it was last
given other storage. -/
inductive LaidOut : RowSizeOrigin → Bitmap → Prop
  | measured {b} (h : IsInMemory b) : LaidOut (.measured b.measuredRowSize) b
  | raw {bytes platform b} (h : Bitmap.ofRaw bytes platform = .ok b) :
      LaidOut (.header (bytes.wordAt 0)) b
  | rawResource {r platform b} (h : Bitmap.ofRawResource r platform = .ok b) :
      LaidOut (.header (r.toBytes.wordAt 0)) b
  | part {origin b part} (hb : LaidOut origin b) (h : IsPart b part) : LaidOut origin part
  | run {origin b} (hb : LaidOut origin b) (a : BitmapAction) (displaced : List PixelSource)
      (hkept : (a.run ⟨b, displaced⟩).2.displaced = displaced) :
      LaidOut origin (a.run ⟨b, displaced⟩).2.bitmap
  | setData {origin b b' pixels format rowSize old} (hb : LaidOut origin b)
      (h : Bitmap.setData b pixels format rowSize = .ok (b', old)) : LaidOut (.given rowSize) b'

variable {b : Bitmap}

theorem rowSize_of_allocateBlank {size : Size} {format : PixelFormat} {zeros : Bitmap}
    (h : allocateBlank size format = .ok zeros) : zeros.rowSize = zeros.measuredRowSize := by
  have hshape := hasShape_of_allocateBlank h
  rw [measuredRowSize, hshape.format_eq, hshape.bounds, Rect.maxX_ofSize]
  by_cases hformat : format = .circular
  · subst hformat
    obtain ⟨rows, -, h⟩ := bind_eq_ok_iff.1 h
    obtain ⟨bytes, -, h⟩ := bind_eq_ok_iff.1 h
    cases h
    rfl
  · rw [allocateBlank_eq size hformat] at h
    cases h
    rfl

theorem rowSize_of_ofFrame {header : Png.Header} {palette : List Rgba}
    {key : Option Png.TransparentKey} {frame : Png.Frame} {size : Size} {platform : Platform}
    (h : ofFrame header palette key frame size platform = .ok b) :
    b.rowSize = b.measuredRowSize := by
  unfold ofFrame at h
  -- whatever becomes of the rows, they go into blank storage
  split at h
  all_goals
    obtain ⟨zeros, hzeros, rfl⟩ := map_eq_ok_iff.1 h
    have hmeasured := rowSize_of_allocateBlank hzeros
    exact hmeasured

theorem IsInMemory.rowSize_eq (hb : IsInMemory b) : b.rowSize = b.measuredRowSize := by
  cases hb with
  | blank h =>
    unfold Bitmap.blank at h
    split at h
    · obtain ⟨zeros, hzeros, rfl⟩ := map_eq_ok_iff.1 h
      have hmeasured := rowSize_of_allocateBlank hzeros
      split
      · exact hmeasured
      · exact hmeasured
    · cases h
  | blankWithPalette h =>
    unfold Bitmap.blankWithPalette at h
    split at h
    · obtain ⟨zeros, hzeros, rfl⟩ := map_eq_ok_iff.1 h
      have hmeasured := rowSize_of_allocateBlank hzeros
      exact hmeasured
    · cases h
  | png h =>
    obtain ⟨header, palette, key, frame, size, -, -, hframe⟩ := exists_ofFrame_of_ofPng h
    exact rowSize_of_ofFrame hframe
  | palettized hs h =>
    rw [toPalettized_eq_ok hs.wellFormed.proper h]
    rfl

/-! ### Row sizes of raw bitmaps -/

theorem rowSize_of_ofLayout {bytes : Bytes} {platform : Platform} {pixels : PixelSource}
    {l : RawLayout} (hl : RawLayout.parse bytes platform = .ok l) (h : ofLayout pixels l = .ok b) :
    b.rowSize = bytes.wordAt 0 := by
  obtain ⟨format, -, rfl⟩ := RawLayout.parse_eq_ok_iff.1 hl
  rw [ofLayout_eq] at h
  obtain ⟨rows, -, rfl⟩ := map_eq_ok_iff.1 h
  rfl

/-! ### Row sizes of other storage -/

theorem rowSize_of_setData {b' : Bitmap} {pixels old : PixelSource} {format : PixelFormat}
    {rowSize : UInt16} (h : b.setData pixels format rowSize = .ok (b', old)) :
    b'.rowSize = (RowSizeOrigin.given rowSize).settled b'.format := by
  rcases b.setData_cases pixels format rowSize with ⟨b₁, hb₁, -, hformat, -, -, hlayout⟩ | herror
  · cases hb₁.symm.trans h
    rw [hformat]
    rcases hlayout with ⟨hfixed, -, hsize, -⟩ | ⟨rows, hcircular, -, -, -, hsize⟩
    · rw [RowSizeOrigin.settled_fixed hfixed]
      exact hsize
    · rw [hcircular]
      exact hsize
  · cases herror.symm.trans h

/-! ### Whole histories -/

theorem LaidOut.rowSize_eq {origin : RowSizeOrigin} (hb : LaidOut origin b) :
    b.rowSize = origin.settled b.format := by
  induction hb with
  | @measured b h =>
    rw [h.rowSize_eq]
    by_cases hformat : b.format = .circular
    · rw [measuredRowSize, hformat]
      rfl
    · rw [RowSizeOrigin.settled_fixed hformat]
      rfl
  | raw h =>
    rw [ofRaw_eq] at h
    obtain ⟨l, hl, h⟩ := bind_eq_ok_iff.1 h
    split at h
    · cases h
    · exact rowSize_of_ofLayout hl h
  | rawResource h =>
    rw [ofRawResource_eq] at h
    obtain ⟨l, hl, h⟩ := bind_eq_ok_iff.1 h
    split at h
    · exact rowSize_of_ofLayout hl h
    · cases h
  | part hb h ih =>
    rw [h.sharesLayout.rowSize, h.sharesLayout.format]
    exact ih
  | run hb a displaced hkept ih =>
    rcases a.run_cases ⟨_, displaced⟩ with ⟨p, -, hrun⟩ | ⟨_, _, _, _, _, -, -, hrun⟩ | ⟨-, h⟩
    · rw [hrun]
      exact ih
    · rw [hrun] at hkept
      exact absurd hkept (by simp)
    · rw [h.sharesLayout.rowSize, h.sharesLayout.format]
      exact ih
  | setData hb h ih => exact rowSize_of_setData h

theorem Reachable.exists_laidOut (hb : Reachable b) : ∃ origin, LaidOut origin b := by
  induction hb with
  | made h =>
    cases h with
    | blank h => exact ⟨_, .measured (.blank h)⟩
    | blankWithPalette h => exact ⟨_, .measured (.blankWithPalette h)⟩
    | raw h => exact ⟨_, .raw h⟩
    | png h => exact ⟨_, .measured (.png h)⟩
    | resource h =>
      rw [ofResource_eq] at h
      obtain ⟨r, -, h⟩ := bind_eq_ok_iff.1 h
      split at h
      · exact ⟨_, .measured (.png h)⟩
      · exact ⟨_, .rawResource h⟩
  | palettized hs h ih => exact ⟨_, .measured (.palettized hs h)⟩
  | part hb h ih =>
    obtain ⟨origin, horigin⟩ := ih
    exact ⟨origin, horigin.part h⟩
  | run hb a displaced ih =>
    obtain ⟨origin, horigin⟩ := ih
    rcases a.run_cases ⟨_, displaced⟩ with ⟨p, -, hrun⟩ | ⟨_, _, _, _, after, -, hset, hrun⟩
      | ⟨hkept, -⟩
    · exact ⟨origin, horigin.run a displaced (by rw [hrun])⟩
    · rw [hrun]
      exact ⟨_, horigin.setData hset⟩
    · exact ⟨origin, horigin.run a displaced hkept⟩
  | setData hb h ih =>
    obtain ⟨origin, horigin⟩ := ih
    exact ⟨_, horigin.setData h⟩

theorem WellFormed.end_le_data (hb : b.WellFormed) {rows : List CircularRow}
    (hrows : b.rows = some rows) {r : CircularRow} (hr : r ∈ rows) :
    r.offset + r.span ≤ b.data.length := by
  obtain ⟨y, hy⟩ := List.getElem?_of_mem hr
  have hend := (hb.stacked rows hrows).end_le_storedSize hy
  rw [hb.data_eq_of_table hrows]
  exact Nat.le_trans hend (hb.stored rows hrows)

/-- Exactly the circular bitmaps have a table of rows, and every row of a table is inside the
pixels. The row size of every bitmap was decided somewhere: when it was made, or when its storage
was last replaced. It is zero exactly for circular bitmaps and where zero was declared, unless a
circular one has it from a header that says something else, which it then keeps. -/
theorem circular_rows (hb : Reachable b) :
    (b.rows.isSome = true ↔ b.format = .circular)
      ∧ (∀ rows, b.rows = some rows → ∀ r ∈ rows, r.offset + r.span ≤ b.data.length)
      ∧ (∃ origin, LaidOut origin b)
      ∧ ∀ origin, LaidOut origin b →
        ((b.rowSize = 0 ↔ b.format = .circular ∨ origin.declared = 0)
            ↔ (b.format = .circular → ∀ rowSize, origin = .header rowSize → rowSize = 0))
          ∧ (b.format = .circular → ∀ rowSize, origin = .header rowSize → b.rowSize = rowSize) := by
  have hform := hb.wellFormed
  refine ⟨hform.isSome_rows, fun rows hrows r hr => hform.end_le_data hrows hr, hb.exists_laidOut,
    fun origin horigin => ?_⟩
  have hsize := horigin.rowSize_eq
  by_cases hformat : b.format = .circular
  · rw [hformat] at hsize
    refine ⟨?_, fun _ rowSize hheader => ?_⟩
    · rw [hsize, RowSizeOrigin.settled_circular]
      simp only [hformat, true_or, iff_true, true_implies]
    · rw [hsize, hheader]
      rfl
  · rw [RowSizeOrigin.settled_fixed hformat] at hsize
    refine ⟨?_, fun h => absurd h hformat⟩
    simp only [hsize, hformat, false_or, false_implies]

def squareBitmap : Bitmap := ⟨.owned [0, 0, 0, 0], .absent, 2, .color, 1, .ofSize ⟨2, 2⟩, none⟩

/-- A disk of two columns and two rows, which is all of the square. -/
def roundBitmap (pixels : PixelSource) (rowSize : UInt16) : Bitmap :=
  ⟨pixels, .absent, rowSize, .circular, 1, .ofSize ⟨2, 2⟩, some [⟨0, 0, 1⟩, ⟨2, 0, 1⟩]⟩

/-- Storage for a disk, declared with a row size, does not keep it. -/
theorem circular_rows_square :
    let round := roundBitmap (.owned [1, 2, 3, 4]) 0
    squareBitmap.setData (.owned [1, 2, 3, 4]) .circular 7 = .ok (round, squareBitmap.pixels)
      ∧ Reachable round ∧ LaidOut (.given 7) round ∧ round.rowSize = 0 := by
  intro round
  have hblank : Bitmap.blank ⟨2, 2⟩ .color .standard = .ok squareBitmap := rfl
  have htable : CircularRow.table squareBitmap.bounds.size = .ok [⟨0, 0, 1⟩, ⟨2, 0, 1⟩] := by
    decide +kernel
  have hset : squareBitmap.setData (.owned [1, 2, 3, 4]) .circular 7
      = .ok (round, squareBitmap.pixels) := by
    simp only [setData, neededFor, htable]
    rfl
  have hreach : Reachable round := .setData (.made (.blank hblank)) hset
  have hgiven : LaidOut (.given 7) round := .setData (.measured (.blank hblank)) hset
  obtain ⟨-, -, -, horigin⟩ := circular_rows hreach
  obtain ⟨hzero, -⟩ := horigin _ hgiven
  exact ⟨hset, hreach, hgiven, (hzero.2 fun _ _ h => nomatch h).2 (.inl rfl)⟩

/-- The same disk in a raw file that says four bytes a row. -/
theorem circular_keeps_header :
    let bytes : Bytes := [4, 0, 10, 16, 0, 0, 0, 0, 2, 0, 2, 0, 1, 2, 3, 4]
    Bitmap.ofRaw bytes .standard = .ok (roundBitmap (.borrowed [1, 2, 3, 4]) 4)
      ∧ (roundBitmap (.borrowed [1, 2, 3, 4]) 4).format = .circular
      ∧ (roundBitmap (.borrowed [1, 2, 3, 4]) 4).rowSize ≠ 0 := by
  intro bytes
  have hparse : RawLayout.parse bytes .standard = .ok ⟨.circular, 1, 4, ⟨2, 2⟩, 4, 0⟩ := by
    decide +kernel
  have htable : CircularRow.table ⟨2, 2⟩ = .ok [⟨0, 0, 1⟩, ⟨2, 0, 1⟩] := by decide +kernel
  refine ⟨?_, rfl, by decide⟩
  rw [ofRaw_eq, hparse]
  simp only [Except.bind, RawLayout.totalLength, RawLayout.headerSize, ofLayout_eq, rowsFor, htable]
  rfl

end Bitmap

end DialGraphics
