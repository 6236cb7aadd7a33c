import DialGraphics.Proofs.Bitmap.Rows
import DialGraphics.Proofs.Bytes.Groups

/-!
# Sound bitmaps

A sound bitmap stores all rows of its bounds. One is sound if its rows of one length reach far
enough, or if its table is the one for its size; another palette takes no row away.
-/

namespace DialGraphics.Bitmap

/-- A bitmap that stores all rows of its bounds. -/
structure IsSound (b : Bitmap) : Prop extends b.WellFormed where
  holds : b.HoldsBounds

/-! ### Other palettes -/

theorem row?_setPalette {b : Bitmap} {y : Int} {row : RowInfo} (palette : Palette)
    (h : b.row? y = some row) : (b.setPalette palette).row? y = some row := by
  have hslice : ∀ {start n : Nat} {part : Bytes}, b.data.slice? start n = some part
      → b.pixels.toBytes.slice? start n = some part := by
    intro start n part hpart
    unfold data at hpart
    split at hpart
    · exact Bytes.slice?_of_take hpart
    · exact hpart
  unfold row? at h ⊢
  split
  · rename_i hneg
    rw [if_pos hneg] at h
    cases h
  · rename_i hneg
    rw [if_neg hneg] at h
    cases hrows : b.rows with
    | none =>
      rw [hrows] at h
      obtain ⟨part, hpart, rfl⟩ := Option.map_eq_some_iff.1 h
      simp only [setPalette, hrows, Option.map_eq_some_iff]
      exact ⟨part, hslice hpart, rfl⟩
    | some rows =>
      rw [hrows] at h
      obtain ⟨r, hr, h⟩ := Option.bind_eq_some_iff.1 h
      obtain ⟨part, hpart, rfl⟩ := Option.map_eq_some_iff.1 h
      simp only [setPalette, hrows, hr, Option.bind_some, Option.map_eq_some_iff]
      exact ⟨part, hslice hpart, rfl⟩

theorem WellFormed.setPalette {b : Bitmap} (hb : b.WellFormed) (palette : Palette) :
    (b.setPalette palette).WellFormed where
  proper := hb.proper
  isSome_rows := hb.isSome_rows
  stacked := hb.stacked
  stored := hb.stored
  count_le := hb.count_le
  palette_fixed := fun _ h => nomatch h

theorem IsSound.setPalette {b : Bitmap} (hb : b.IsSound) (palette : Palette) :
    (b.setPalette palette).IsSound where
  toWellFormed := hb.toWellFormed.setPalette palette
  holds := by
    intro y hy
    obtain ⟨row, hrow, hwide⟩ := hb.holds y hy
    exact ⟨row, row?_setPalette palette hrow, hwide⟩

/-! ### Rows of one length -/

theorem wellFormed_of_fixed {b : Bitmap} (hproper : b.bounds.IsProper) (hrows : b.rows = none)
    (hformat : b.format ≠ .circular) : b.WellFormed where
  proper := hproper
  isSome_rows := by
    rw [hrows]
    exact ⟨(fun h => nomatch h), fun h => absurd h hformat⟩
  stacked := by
    rw [hrows]
    exact fun _ h => nomatch h
  stored := by
    rw [hrows]
    exact fun _ h => nomatch h
  count_le := by
    rw [hrows]
    exact fun _ h => nomatch h
  palette_fixed := fun _ _ => hrows

theorem isSound_of_fixed {b : Bitmap} (hproper : b.bounds.IsProper) (hrows : b.rows = none)
    (hformat : b.format ≠ .circular)
    (hwide : b.format.bitsPerPixel * b.bounds.maxX ≤ 8 * b.rowSize.toNat)
    (hlong : b.bounds.maxY.toNat * b.rowSize.toNat ≤ b.data.length) : b.IsSound where
  toWellFormed := wellFormed_of_fixed hproper hrows hformat
  holds := (holdsBounds_iff_of_fixed hproper hrows hwide).2 (Or.inr hlong)

/-! ### Rows in a table -/

theorem wellFormed_of_table {b : Bitmap} {size : Size} {rows : List CircularRow}
    (hproper : b.bounds.IsProper) (htable : CircularRow.table size = .ok rows)
    (hrows : b.rows = some rows) (hformat : b.format = .circular)
    (hstored : CircularRow.storedSize rows ≤ b.pixels.toBytes.length)
    (hpalette : ∀ offset, b.palette ≠ .trailing offset) : b.WellFormed where
  proper := hproper
  isSome_rows := by
    rw [hrows]
    exact ⟨fun _ => hformat, fun _ => rfl⟩
  stacked := by
    intro t ht
    cases ht.symm.trans hrows
    exact CircularRow.isStacked_table htable
  stored := by
    intro t ht
    cases ht.symm.trans hrows
    exact hstored
  count_le := by
    intro t ht
    cases ht.symm.trans hrows
    have := CircularRow.length_table htable
    have := size.h.toInt_lt
    omega
  palette_fixed := fun offset h => absurd h (hpalette offset)

theorem isSound_of_table {b : Bitmap} {size : Size} {rows : List CircularRow}
    (htable : CircularRow.table size = .ok rows) (hbounds : b.bounds = .ofSize size)
    (hrows : b.rows = some rows) (hformat : b.format = .circular)
    (hstored : CircularRow.storedSize rows ≤ b.pixels.toBytes.length)
    (hpalette : ∀ offset, b.palette ≠ .trailing offset) : b.IsSound := by
  have hproper : b.bounds.IsProper := by
    rw [hbounds]
    exact Rect.isProper_ofSize (Size.isNegative_of_isEmpty (CircularRow.isEmpty_of_table htable))
  have hb := wellFormed_of_table hproper htable hrows hformat hstored hpalette
  refine ⟨hb, (holdsBounds_iff_of_table hb hrows).2 (Or.inr ?_)⟩
  have hlength := CircularRow.length_table htable
  have hmaxY := Rect.maxY_ofSize size
  rw [hbounds]
  omega

end DialGraphics.Bitmap
