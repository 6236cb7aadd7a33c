import DialGraphics.Proofs.Bitmap.Reachable

/-!
# Safe views

A view of a bitmap, or a view of such a view, can be clipped to any rectangle, and every row of its
bounds is there: the same bytes as in the bitmap, in a place of their own.
-/

namespace DialGraphics.Bitmap

/-- A bitmap as it is made, be it as the palette form of another one. -/
inductive IsConstructed : Bitmap → Prop
  | made {b} (h : IsMade b) : IsConstructed b
  | palettized {source b} (hs : Reachable source) (h : source.toPalettized = .ok b) :
      IsConstructed b

variable {b root part : Bitmap}

theorem IsConstructed.isSound (hb : IsConstructed b) : b.IsSound := by
  cases hb with
  | made h => exact h.isSound
  | palettized hs h => exact isSound_of_toPalettized hs.wellFormed.proper h

theorem rowPlace?_of_row? {y : Int} {row : RowInfo} (h : b.row? y = some row) :
    ∃ start n, b.rowPlace? y = some (start, n) ∧ row.data = (b.data.drop start).take n
      ∧ start + n ≤ b.data.length
      ∧ ∀ offset, b.palette = .trailing offset → start + n ≤ offset := by
  obtain ⟨start, n, hplace, hend, hdata⟩ := row?_eq_some h
  refine ⟨start, n, hplace, hdata, hend, ?_⟩
  intro offset hoffset
  exact Nat.le_trans hend (length_data_le_trailing hoffset)

theorem WellFormed.disjoint_rowPlace? (hb : b.WellFormed) {y z : Int} (hyz : y ≠ z)
    {start n start' n' : Nat} (hy : b.rowPlace? y = some (start, n))
    (hz : b.rowPlace? z = some (start', n')) : start + n ≤ start' ∨ start' + n' ≤ start := by
  rcases Int.lt_or_gt_of_ne hyz with hlt | hlt
  · exact Or.inl (end_le_start_of_lt hb hlt hy hz)
  · exact Or.inr (end_le_start_of_lt hb hlt hz hy)

theorem IsViewOf.holdsRow (h : part.IsViewOf root) (hroot : root.IsSound) {y : Int}
    (hy : part.bounds.rows.Covers y) :
    ∃ row rootRow, part.row? y = some row ∧ root.row? y = some rootRow ∧ row.data = rootRow.data
      ∧ (part.format ≠ .circular
        → part.format.bitsPerPixel * part.bounds.maxX ≤ 8 * row.data.length) := by
  obtain ⟨⟨hleft, hright⟩, htop, hbottom⟩ := (Rect.contains_iff h.proper).1 h.inside
  have hcovers : root.bounds.rows.Covers y :=
    ⟨Int.le_trans htop hy.1, Int.lt_of_lt_of_le hy.2 hbottom⟩
  obtain ⟨rootRow, hrootRow, hwide⟩ := hroot.holds y hcovers
  have hdata := h.map_data_row? y
  rw [hrootRow] at hdata
  obtain ⟨row, hrow, hsame⟩ := Option.map_eq_some_iff.1 hdata
  refine ⟨row, rootRow, hrow, hrootRow, hsame, ?_⟩
  intro hformat
  rw [h.format] at hformat ⊢
  rw [hsame]
  exact Int.le_trans (Int.mul_le_mul_of_nonneg_left hright (Int.natCast_nonneg _)) (hwide hformat)

/-- For every chain of views of a bitmap that was just made: clipping is always defined; what is
clipped out has proper bounds inside those of the view; each row of the bounds is stored, with the
bytes that the bitmap has in that row; and rows of the bitmap are apart from one another and from a
palette behind them. -/
theorem safe_views (hroot : IsConstructed root)
    (hchain : Relation.ReflTransGen IsPart root part) :
    (∀ rect, (Rect.clip? rect part.bounds).isSome = true)
      ∧ (∀ child, IsPart part child
        → child.bounds.IsProper ∧ part.bounds.contains child.bounds = true)
      ∧ (∀ y, part.bounds.rows.Covers y
        → ∃ row rootRow, part.row? y = some row ∧ root.row? y = some rootRow
          ∧ row.data = rootRow.data
          ∧ (part.format ≠ .circular
            → part.format.bitsPerPixel * part.bounds.maxX ≤ 8 * row.data.length))
      ∧ (∀ y row, root.row? y = some row
        → ∃ start n, root.rowPlace? y = some (start, n)
          ∧ row.data = (root.data.drop start).take n ∧ start + n ≤ root.data.length
          ∧ ∀ offset, root.palette = .trailing offset → start + n ≤ offset)
      ∧ ∀ y z start n start' n', y ≠ z → root.rowPlace? y = some (start, n)
        → root.rowPlace? z = some (start', n') → start + n ≤ start' ∨ start' + n' ≤ start := by
  have hsound := hroot.isSound
  have hview := isViewOf_of_chain hsound.proper hchain
  refine ⟨?_, ?_, ?_, ?_, ?_⟩
  · intro rect
    obtain ⟨bounds, hbounds, -⟩ := rect.clip?_of_isProper hview.proper
    exact Option.isSome_of_eq_some hbounds
  · intro child hchild
    have hpart := hchild.isViewOf hview.proper
    exact ⟨hpart.proper, hpart.inside⟩
  · intro y hy
    exact hview.holdsRow hsound hy
  · intro y row hrow
    exact rowPlace?_of_row? hrow
  · intro y z start n start' n' hyz hy hz
    exact hsound.disjoint_rowPlace? hyz hy hz

def blankBitmap : Bitmap :=
  ⟨.owned (List.replicate 12 0), .absent, 4, .color, 1, .ofSize ⟨4, 3⟩, none⟩

def cornerPart : Bitmap :=
  ⟨.borrowed (List.replicate 12 0), .absent, 4, .color, 1, ⟨⟨1, 1⟩, ⟨2, 2⟩⟩, none⟩

theorem safe_views_cornerPart :
    IsConstructed blankBitmap ∧ Relation.ReflTransGen IsPart blankBitmap cornerPart
      ∧ (Rect.clip? ⟨⟨5, -7⟩, ⟨-32768, -32768⟩⟩ cornerPart.bounds).isSome = true
      ∧ ∃ row rootRow, cornerPart.row? 2 = some row ∧ blankBitmap.row? 2 = some rootRow
        ∧ row.data = rootRow.data := by
  have hmade : Bitmap.blank ⟨4, 3⟩ .color .standard = .ok blankBitmap := rfl
  have hconstructed : IsConstructed blankBitmap := .made (.blank hmade)
  let leftPart : Bitmap :=
    ⟨.loaned (List.replicate 12 0), .absent, 4, .color, 1, ⟨⟨0, 1⟩, ⟨3, 2⟩⟩, none⟩
  have hleft : Rect.clip? ⟨⟨3, 9⟩, ⟨-5, -8⟩⟩ blankBitmap.bounds = some ⟨⟨0, 1⟩, ⟨3, 2⟩⟩ := by decide
  have hcorner : Rect.clip? ⟨⟨1, -100⟩, ⟨100, 200⟩⟩ leftPart.bounds = some ⟨⟨1, 1⟩, ⟨2, 2⟩⟩ := by
    decide
  have hfirst : IsPart blankBitmap leftPart := .writable hleft rfl
  have hsecond : IsPart leftPart cornerPart :=
    .readOnly (congrArg (Option.map leftPart.view) hcorner)
  have hchain : Relation.ReflTransGen IsPart blankBitmap cornerPart :=
    .tail (.single hfirst) hsecond
  obtain ⟨hclip, -, hrows, -⟩ := safe_views hconstructed hchain
  obtain ⟨row, rootRow, hrow, hroot, hsame, -⟩ := hrows 2 (by decide)
  exact ⟨hconstructed, hchain, hclip _, row, rootRow, hrow, hroot, hsame⟩

end DialGraphics.Bitmap
