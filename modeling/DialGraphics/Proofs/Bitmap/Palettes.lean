import DialGraphics.Proofs.Bitmap.Bounds
import DialGraphics.Proofs.Bitmap.Histories
import DialGraphics.Proofs.Bitmap.PaletteForm
import DialGraphics.Proofs.Resource.HeapCopies

/-!
# Other palettes

Where the pixels end is known from a palette behind them only. So another palette leaves the pixels
as they are if the one before it was elsewhere; if not, its entries are pixels from then on.
-/

namespace DialGraphics

theorem PixelSource.toBytes_replace {p : PixelSource} {bytes : Bytes} (hp : p.isWritable = true)
    (hlength : bytes.length = p.toBytes.length) : (p.replace bytes).toBytes = bytes := by
  cases p with
  | resource r =>
    have hr : r.isMapped = false := by simpa only [isWritable, Bool.not_eq_true'] using hp
    exact ResourceBytes.toBytes_replace hr hlength
  | owned old => rfl
  | borrowed old => cases hp
  | loaned old => rfl

theorem PixelFormat.paletteSize_pos {f : PixelFormat} (h : f.isPalettized = true) :
    0 < f.paletteSize := by
  rw [paletteSize, if_pos h]
  exact Nat.two_pow_pos _

namespace Bitmap

variable {b b' : Bitmap}

/-- The palette, if there is one, is not behind the pixels. -/
def IsApart (b : Bitmap) : Prop := ∀ offset, b.palette ≠ .trailing offset

/-! ### Writes -/

theorem writableLength?_eq_some {n : Nat} (h : b.writableLength? = some n) :
    b.pixels.isWritable = true ∧ n = b.data.length := by
  unfold writableLength? at h
  split at h
  · rename_i hwritable
    exact ⟨hwritable, (Option.some.inj h).symm⟩
  · cases h

/-- A byte of the pixels that is written is in front of a palette behind them. -/
theorem write?_keeps_colors {pos : Nat} {value : UInt8} (h : b.write? pos value = some b') :
    b'.colors? = b.colors? ∧ b'.data = b.data.set pos value := by
  unfold write? at h
  cases hn : b.writableLength? with
  | none =>
    rw [hn] at h
    cases h
  | some n =>
    rw [hn] at h
    simp only at h
    split at h
    · rename_i hpos
      cases h
      obtain ⟨hwritable, rfl⟩ := writableLength?_eq_some hn
      have hbytes := PixelSource.toBytes_replace hwritable
        (show (b.pixels.toBytes.set pos value).length = _ from List.length_set ..)
      cases hpalette : b.palette with
      | absent =>
        simp only [colors?, data, hpalette, hbytes, and_self]
      | given p =>
        simp only [colors?, data, hpalette, hbytes, and_self]
      | trailing offset =>
        have hfront : pos < offset := Nat.lt_of_lt_of_le hpos (length_data_le_trailing hpalette)
        simp only [colors?, data, hpalette, hbytes, List.take_set, and_true]
        rw [Bytes.slice?_eq, Bytes.slice?_eq, List.length_set, List.drop_set_of_lt hfront]
    · cases h

/-- A palette that can be written is behind the pixels, or it is not with them at all. -/
theorem writeColor?_keeps_data {index : Nat} {color : Color}
    (h : b.writeColor? index color = some b') : b'.data = b.data := by
  unfold writeColor? at h
  cases hcolors : b.writableColors? with
  | none =>
    rw [hcolors] at h
    cases h
  | some colors =>
    rw [hcolors] at h
    simp only at h
    split at h
    · split at h
      · rename_i offset hpalette
        cases h
        have hwritable : b.pixels.isWritable = true := by
          rw [writableColors?, hpalette] at hcolors
          by_contra hnot
          simp only [if_neg hnot] at hcolors
          cases hcolors
        have hbytes := PixelSource.toBytes_replace hwritable
          (show (b.pixels.toBytes.set (offset + index) color.argb).length = _ from
            List.length_set ..)
        simp only [data, hpalette, hbytes]
        exact List.take_set_of_le (Nat.le_add_right ..)
      · rename_i hplace
        cases h
        rw [data_of_not_trailing hplace]
        rfl
    · cases h

/-! ### Palettes apart from the pixels -/

theorem IsApart.follows (hb : b.IsApart) (h : Follows b b') : b'.IsApart :=
  fun offset hoffset => hb offset (h.palette_trailing hoffset).1

theorem IsApart.of_chain (hb : b.IsApart) (h : Relation.ReflTransGen Follows b b') :
    b'.IsApart := by
  induction h with
  | refl => exact hb
  | tail _ hnext ih => exact ih.follows hnext

/-- Nothing that happens to the pixels is seen in such a palette. -/
theorem IsApart.colors?_withPixels (hb : b.IsApart) (pixels : PixelSource) :
    colors? { b with pixels } = b.colors? := by
  unfold colors?
  simp only
  split
  · rfl
  · rfl
  · rename_i offset hoffset
    exact absurd hoffset (hb offset)

theorem IsApart.colors?_subWritable (hb : b.IsApart) (rect : Rect) (actions : List BitmapAction)
    (displaced : List PixelSource) :
    ((BitmapAction.subWritable rect actions).run ⟨b, displaced⟩).2.bitmap.colors?
      = b.colors? := by
  show (HeldBitmap.lendWritablePart _ rect (BitmapAction.runAll actions)).2.bitmap.colors? = _
  unfold HeldBitmap.lendWritablePart
  split
  · rfl
  · split
    · rfl
    · exact hb.colors?_withPixels _

theorem IsApart.writableColors?_part {part : Bitmap} (hb : b.IsApart) (h : IsPart b part) :
    part.writableColors? = none := by
  obtain ⟨pixels, bounds, rfl, -⟩ := h.eq_lend
  cases hpalette : b.palette with
  | absent => rfl
  | given p => rfl
  | trailing offset => exact absurd hpalette (hb offset)

/-! ### Palettes behind the pixels -/

/-- All entries of a palette behind the pixels are there, whatever was done with the bitmap. -/
theorem Reachable.backsPalette (hb : Reachable b) : b.BacksPalette := by
  have hnext : ∀ {b b' : Bitmap}, b.BacksPalette → Follows b b' → b'.BacksPalette := by
    intro b b' hb h offset hoffset
    obtain ⟨hbefore, hlayout⟩ := h.palette_trailing hoffset
    rw [hlayout.format, hlayout.length]
    exact hb offset hbefore
  induction hb with
  | made h =>
    obtain ⟨size, hcomplete⟩ := h.exists_isComplete
    exact hcomplete.backs
  | palettized hs h ih =>
    rw [toPalettized_eq_ok hs.wellFormed.proper h]
    exact fun offset hoffset => nomatch hoffset
  | part hb h ih => exact hnext ih (.part h)
  | run hb a displaced ih => exact hnext ih (.run a displaced)
  | setData hb h ih => exact hnext ih (.setData h)

/-- The storage is the pixels, the palette behind them, and bytes that mean nothing. -/
theorem BacksPalette.toBytes_eq (hb : b.BacksPalette) {offset : Nat}
    (hoffset : b.palette = .trailing offset) :
    ∃ colors rest, colors ≠ [] ∧ b.colors? = some colors
      ∧ b.pixels.toBytes = b.data ++ colors.map Color.argb ++ rest := by
  obtain ⟨hpalettized, hlong⟩ := hb offset hoffset
  have hpos := PixelFormat.paletteSize_pos hpalettized
  let entries := (b.pixels.toBytes.drop offset).take b.format.paletteSize
  have hcount : entries.length = b.format.paletteSize := by
    rw [List.length_take, List.length_drop]
    omega
  refine ⟨entries.map Color.mk, b.pixels.toBytes.drop (offset + b.format.paletteSize), ?_, ?_, ?_⟩
  · intro hnone
    rw [List.map_eq_nil_iff.1 hnone] at hcount
    exact absurd hcount (Nat.ne_of_lt hpos)
  · simp only [colors?, hoffset, Bytes.slice?_eq, if_pos hlong]
    rfl
  · have hsame : (entries.map Color.mk).map Color.argb = entries := by
      rw [List.map_map]
      exact List.map_id _
    rw [hsame, ← List.drop_drop, List.append_assoc, List.take_append_drop]
    simp only [data, hoffset, List.take_append_drop]

/-! ### What another palette changes -/

/-- The same pixels can be read and written, in the same rows. -/
structure SamePixels (b' b : Bitmap) : Prop where
  data : b'.data = b.data
  writableLength? : b'.writableLength? = b.writableLength?
  row? : ∀ y, b'.row? y = b.row? y

theorem samePixels_setPalette (hb : b.IsApart) (p : Palette) : (b.setPalette p).SamePixels b := by
  have hdata : (b.setPalette p).data = b.data := (data_of_not_trailing hb).symm
  refine ⟨hdata, ?_, fun y => ?_⟩
  · simp only [Bitmap.writableLength?, hdata]
    rfl
  · simp only [Bitmap.row?, hdata]
    rfl

/-- Another palette changes no pixels exactly if the one before it is not behind them. If it is, it
becomes part of the pixels. From then on the palette is apart from the pixels, whatever is done with
the bitmap and with parts of it, and nothing that is written to one of the two is seen in the
other. -/
theorem setPalette_keeps_pixels (hb : Reachable b) (p : Palette) :
    let after := b.setPalette p
    (after.format = b.format ∧ after.rowSize = b.rowSize ∧ after.version = b.version
        ∧ after.bounds = b.bounds ∧ after.colors? = some p.colors)
      ∧ (after.SamePixels b ↔ b.IsApart)
      ∧ (¬ b.IsApart → ∃ old rest, old ≠ [] ∧ b.colors? = some old
        ∧ after.data = b.data ++ old.map Color.argb ++ rest
        ∧ ∀ y row, b.row? y = some row → after.row? y = some row)
      ∧ ∀ later, Relation.ReflTransGen Follows after later →
        (∀ pos value written, later.write? pos value = some written
            → written.colors? = later.colors?)
          ∧ (∀ index color written, later.writeColor? index color = some written
            → written.data = later.data)
          ∧ (∀ rect actions displaced,
            ((BitmapAction.subWritable rect actions).run ⟨later, displaced⟩).2.bitmap.colors?
              = later.colors?)
          ∧ ∀ part, IsPart later part → part.writableColors? = none := by
  intro after
  have huncovered : ¬ b.IsApart → ∃ old rest, old ≠ [] ∧ b.colors? = some old
      ∧ after.data = b.data ++ old.map Color.argb ++ rest := by
    intro hbehind
    simp only [IsApart, not_forall, not_not] at hbehind
    obtain ⟨offset, hoffset⟩ := hbehind
    exact hb.backsPalette.toBytes_eq hoffset
  refine ⟨⟨rfl, rfl, rfl, rfl, rfl⟩, ⟨fun hsame => ?_, fun hapart => ?_⟩, fun hbehind => ?_, ?_⟩
  · by_contra hbehind
    obtain ⟨old, rest, hne, -, hdata⟩ := huncovered hbehind
    have hlength := congrArg List.length (hsame.data.symm.trans hdata)
    simp only [List.length_append, List.length_map] at hlength
    have hpos := List.length_pos_iff.2 hne
    omega
  · exact samePixels_setPalette hapart p
  · obtain ⟨old, rest, hne, hcolors, hdata⟩ := huncovered hbehind
    exact ⟨old, rest, hne, hcolors, hdata, fun y row => row?_setPalette p⟩
  · intro later hlater
    have hapart : after.IsApart := fun offset hoffset => nomatch hoffset
    have hlater := hapart.of_chain hlater
    exact ⟨fun _ _ _ h => (write?_keeps_colors h).1, fun _ _ _ h => writeColor?_keeps_data h,
      hlater.colors?_subWritable, fun part h => hlater.writableColors?_part h⟩

def grays : List Color := [⟨0xc0⟩, ⟨0xd5⟩, ⟨0xea⟩, ⟨0xff⟩]

/-- Four pixels are drawn in a new palette. -/
theorem setPalette_keeps_pixels_blank :
    ∃ b, Bitmap.blank ⟨4, 2⟩ .palette2 .standard = .ok b
      ∧ (b.setPalette (.borrowed grays)).SamePixels b
      ∧ ∃ drawn, (b.setPalette (.borrowed grays)).write? 1 0x1b = some drawn
        ∧ drawn.colors? = some grays := by
  let b : Bitmap := ⟨.owned [0, 0], .given (.owned (List.replicate 4 .clear)), 1, .palette2, 1,
    .ofSize ⟨4, 2⟩, none⟩
  have hblank : Bitmap.blank ⟨4, 2⟩ .palette2 .standard = .ok b := rfl
  have hmade : Reachable b := .made (.blank hblank)
  obtain ⟨-, hsame, -, hlater⟩ := setPalette_keeps_pixels hmade (.borrowed grays)
  obtain ⟨hwrite, -⟩ := hlater _ .refl
  exact ⟨b, hblank, hsame.2 (fun offset hoffset => nomatch hoffset), _, rfl,
    hwrite 1 0x1b _ rfl⟩

/-- A raw file of two rows has three and more of them with another palette. -/
theorem setPalette_uncovers_palette :
    ∃ b, Bitmap.ofRaw HeldBitmap.paletteFile .standard = .ok b
      ∧ b.data = [0x1b, 0xe4] ∧ b.row? 2 = none
      ∧ (b.setPalette (.owned grays)).data = [0x1b, 0xe4, 0xc0, 0xd5, 0xea, 0xff]
      ∧ (b.setPalette (.owned grays)).row? 2 = some ⟨[0xc0], 0, 3⟩ :=
  ⟨_, rfl, rfl, rfl, rfl, rfl⟩

end Bitmap

end DialGraphics
