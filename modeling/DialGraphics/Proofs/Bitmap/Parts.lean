import DialGraphics.Proofs.Bitmap.Operations
import Mathlib.Logic.Relation

/-!
# Parts of bitmaps

A part has the storage of the whole and bounds inside those of the whole. A part of a part is a part
again.
-/

namespace DialGraphics.Bitmap

inductive IsPart (b part : Bitmap) : Prop
  | readOnly {rect} (h : b.subBitmap? rect = some part)
  | writable {rect bounds} (hclip : Rect.clip? rect b.bounds = some bounds)
      (h : b.writableView? bounds = some part)

variable {b : Bitmap}

/-- What a part shares with the whole: all of the storage. -/
structure IsViewOf (part b : Bitmap) : Prop where
  rows : part.rows = b.rows
  rowSize : part.rowSize = b.rowSize
  format : part.format = b.format
  data : part.data = b.data
  proper : part.bounds.IsProper
  inside : b.bounds.contains part.bounds = true

theorem isViewOf_self (h : b.bounds.IsProper) : IsViewOf b b :=
  ⟨rfl, rfl, rfl, rfl, h, (Rect.contains_iff h).2 ⟨⟨Int.le_refl _, Int.le_refl _⟩, Int.le_refl _,
    Int.le_refl _⟩⟩

theorem IsViewOf.trans {part child : Bitmap} (hc : child.IsViewOf part) (hp : part.IsViewOf b) :
    child.IsViewOf b := by
  obtain ⟨⟨hleft, hright⟩, htop, hbottom⟩ := (Rect.contains_iff hp.proper).1 hp.inside
  obtain ⟨⟨hleft', hright'⟩, htop', hbottom'⟩ := (Rect.contains_iff hc.proper).1 hc.inside
  refine ⟨hc.rows.trans hp.rows, hc.rowSize.trans hp.rowSize, hc.format.trans hp.format,
    hc.data.trans hp.data, hc.proper, (Rect.contains_iff hc.proper).2 ⟨⟨?_, ?_⟩, ?_, ?_⟩⟩
  · exact Int.le_trans hleft hleft'
  · exact Int.le_trans hright' hright
  · exact Int.le_trans htop htop'
  · exact Int.le_trans hbottom' hbottom

theorem data_lend {pixels : PixelSource} {bounds : Rect}
    (h : pixels.toBytes = b.pixels.toBytes) :
    data { b with pixels, palette := b.palette.lend, bounds } = b.data := by
  unfold data
  cases hpalette : b.palette with
  | absent => exact h
  | given palette => exact h
  | trailing offset => exact congrArg (List.take offset) h

theorem IsPart.isViewOf {part : Bitmap} (h : IsPart b part) (hb : b.bounds.IsProper) :
    part.IsViewOf b := by
  have hclipped : ∀ {rect bounds : Rect}, rect.clip? b.bounds = some bounds
      → bounds.IsProper ∧ b.bounds.contains bounds = true := by
    intro rect bounds hclip
    obtain ⟨part, hpart, hproper, hinside⟩ := rect.clip?_of_isProper hb
    cases hpart.symm.trans hclip
    exact ⟨hproper, hinside⟩
  cases h with
  | readOnly h =>
    obtain ⟨bounds, hclip, rfl⟩ := Option.map_eq_some_iff.1 h
    obtain ⟨hproper, hinside⟩ := hclipped hclip
    exact ⟨rfl, rfl, rfl, data_lend rfl, hproper, hinside⟩
  | writable hclip h =>
    obtain ⟨hproper, hinside⟩ := hclipped hclip
    rw [writableView?_eq_some h]
    exact ⟨rfl, rfl, rfl, data_lend rfl, hproper, hinside⟩

theorem IsPart.wellFormed {part : Bitmap} (h : IsPart b part) (hb : b.WellFormed) :
    part.WellFormed := by
  have hproper := (h.isViewOf hb.proper).proper
  cases h with
  | readOnly h =>
    obtain ⟨bounds, hclip, rfl⟩ := Option.map_eq_some_iff.1 h
    exact hb.view hproper
  | writable hclip h =>
    rw [writableView?_eq_some h] at hproper
    exact hb.writableView? hproper h

theorem isViewOf_of_chain {part : Bitmap} (hb : b.bounds.IsProper)
    (hchain : Relation.ReflTransGen IsPart b part) : part.IsViewOf b := by
  induction hchain with
  | refl => exact isViewOf_self hb
  | tail _ hpart ih => exact (hpart.isViewOf ih.proper).trans ih

theorem IsViewOf.map_data_row? {part : Bitmap} (h : part.IsViewOf b) (y : Int) :
    (part.row? y).map RowInfo.data = (b.row? y).map RowInfo.data := by
  have hplace : part.rowPlace? y = b.rowPlace? y := by
    simp only [rowPlace?, h.rows, h.rowSize]
  rw [Bitmap.map_data_row?, Bitmap.map_data_row?, hplace, h.data]

end DialGraphics.Bitmap
