import DialGraphics.Proofs.Bitmap.Complete

/-!
# Histories of bitmaps

An operation gives a bitmap another palette or other storage, or it changes something in place: the
bytes of the pixels, one colour, the bounds. A part has the storage of the whole, and its palette on
loan. So rows and palette stay where they are until the storage is replaced.
-/

namespace DialGraphics

/-- A proper rectangle that ends inside an area which starts at the origin. -/
structure Rect.IsWithin (r : Rect) (size : Size) : Prop extends r.IsProper where
  maxX_le : r.maxX ≤ size.w.toInt
  maxY_le : r.maxY ≤ size.h.toInt

namespace Bitmap

variable {b b' : Bitmap}

theorem setBounds_eq_ok_iff {r : Rect} :
    b.setBounds r = .ok { b with bounds := r } ↔ r.IsWithin b.storageSize := by
  constructor
  · intro h
    rcases b.setBounds_cases r with ⟨-, hproper, hmaxX, hmaxY⟩ | herror
    · exact ⟨hproper, hmaxX, hmaxY⟩
    · cases herror.symm.trans h
  · intro h
    have hsize : r.size.isNegative = false :=
      Size.isNegative_eq_false_iff.2 ⟨h.columns.length_nonneg, h.rows.length_nonneg⟩
    have hinside : (Rect.ofSize b.storageSize).contains r = true := by
      rw [Rect.contains_iff h.toIsProper, Rect.maxX_ofSize, Rect.maxY_ofSize]
      exact ⟨⟨h.columns.start_nonneg, h.maxX_le⟩, h.rows.start_nonneg, h.maxY_le⟩
    rw [setBounds, hsize, hinside]
    rfl

theorem setBounds_eq_error {r : Rect} (h : ¬ r.IsWithin b.storageSize) :
    b.setBounds r = .error .badParameter := by
  rcases b.setBounds_cases r with ⟨hok, -⟩ | herror
  · exact absurd (setBounds_eq_ok_iff.1 hok) h
  · exact herror

/-! ### Changes in place -/

/-- What an operation can do to a bitmap that keeps its storage and the place of its palette. -/
inductive ChangesInPlace (b : Bitmap) : Bitmap → Prop
  | nothing : ChangesInPlace b b
  | pixels (pixels : PixelSource) (hlength : pixels.toBytes.length = b.pixels.toBytes.length) :
      ChangesInPlace b { b with pixels }
  | color {colors : List Color} (hcolors : b.palette = .given (.owned colors)) (index : Nat)
      (color : Color) : ChangesInPlace b (b.setPalette (.owned (colors.set index color)))
  | bounds {bounds : Rect} (hwithin : bounds.IsWithin b.storageSize) :
      ChangesInPlace b { b with bounds }

theorem changesInPlace_of_write? {pos : Nat} {value : UInt8} (h : b.write? pos value = some b') :
    ChangesInPlace b b' := by
  obtain ⟨pixels, rfl, hlength⟩ := write?_eq_some h
  exact .pixels pixels hlength

theorem changesInPlace_of_writeColor? {index : Nat} {color : Color}
    (h : b.writeColor? index color = some b') : ChangesInPlace b b' := by
  unfold writeColor? at h
  cases hcolors : b.writableColors? with
  | none =>
    rw [hcolors] at h
    cases h
  | some colors =>
    rw [hcolors] at h
    simp only at h
    split at h
    · split at h
      · cases h
        exact .pixels _ (b.pixels.length_replace (List.length_set ..))
      · rename_i hplace
        cases h
        -- colours that can be written are behind the pixels or the bitmap's own
        unfold writableColors? at hcolors
        split at hcolors
        · cases hcolors
        · cases hcolors
        · rename_i own hown
          cases hcolors
          exact .color hown index color
        · rename_i offset hoffset
          exact absurd hoffset (hplace offset)
    · cases h

/-! ### What stays -/

/-- Two bitmaps with rows in the same places. -/
structure SharesLayout (b' b : Bitmap) : Prop where
  format : b'.format = b.format
  version : b'.version = b.version
  rowSize : b'.rowSize = b.rowSize
  rows : b'.rows = b.rows
  length : b'.pixels.toBytes.length = b.pixels.toBytes.length

theorem SharesLayout.refl (b : Bitmap) : b.SharesLayout b := ⟨rfl, rfl, rfl, rfl, rfl⟩

theorem SharesLayout.trans {b₁ b₂ b₃ : Bitmap} (h : b₁.SharesLayout b₂) (h' : b₂.SharesLayout b₃) :
    b₁.SharesLayout b₃ :=
  ⟨h.format.trans h'.format, h.version.trans h'.version, h.rowSize.trans h'.rowSize,
    h.rows.trans h'.rows, h.length.trans h'.length⟩

theorem SharesLayout.storageSize (h : b'.SharesLayout b) : b'.storageSize = b.storageSize := by
  simp only [Bitmap.storageSize, h.format, h.rowSize, h.rows, h.length]

theorem sharesLayout_setPalette (b : Bitmap) (palette : Palette) :
    (b.setPalette palette).SharesLayout b := ⟨rfl, rfl, rfl, rfl, rfl⟩

theorem ChangesInPlace.sharesLayout (h : ChangesInPlace b b') : b'.SharesLayout b := by
  cases h with
  | nothing => exact .refl b
  | pixels pixels hlength => exact ⟨rfl, rfl, rfl, rfl, hlength⟩
  | color hcolors index color => exact sharesLayout_setPalette b _
  | bounds hwithin => exact ⟨rfl, rfl, rfl, rfl, rfl⟩

theorem ChangesInPlace.bounds_cases (h : ChangesInPlace b b') :
    b'.bounds = b.bounds ∨ b'.bounds.IsWithin b.storageSize := by
  cases h with
  | nothing => exact .inl rfl
  | pixels pixels hlength => exact .inl rfl
  | color hcolors index color => exact .inl rfl
  | bounds hwithin => exact .inr hwithin

/-! ### Parts -/

theorem IsPart.eq_lend {part : Bitmap} (h : IsPart b part) :
    ∃ pixels bounds, part = { b with pixels, palette := b.palette.lend, bounds }
      ∧ pixels.toBytes = b.pixels.toBytes := by
  cases h with
  | readOnly h =>
    obtain ⟨bounds, -, rfl⟩ := Option.map_eq_some_iff.1 h
    exact ⟨_, bounds, rfl, rfl⟩
  | writable hclip h => exact ⟨_, _, writableView?_eq_some h, rfl⟩

theorem IsPart.sharesLayout {part : Bitmap} (h : IsPart b part) : part.SharesLayout b := by
  obtain ⟨pixels, bounds, rfl, hsame⟩ := h.eq_lend
  exact ⟨rfl, rfl, rfl, rfl, congrArg List.length hsame⟩

/-! ### Operations -/

/-- Other storage comes without a palette of its own. A palette that was given before stays. -/
theorem palette_of_setData {pixels old : PixelSource} {format : PixelFormat} {rowSize : UInt16}
    (h : b.setData pixels format rowSize = .ok (b', old)) :
    b'.format = format ∧ (∀ offset, b'.palette ≠ .trailing offset)
      ∧ ∀ p, b'.palette = .given p ↔ b.palette = .given p := by
  unfold setData at h
  split at h
  · cases h
  · split at h
    · cases h
    · cases h
      refine ⟨rfl, fun offset hoffset => ?_, fun p => ?_⟩
      · simp only at hoffset
        split at hoffset
        · cases hoffset
        · rename_i hother
          exact hother offset hoffset
      · simp only
        split
        · rename_i hpalette
          rw [hpalette]
          exact ⟨(fun h => nomatch h), fun h => nomatch h⟩
        · exact Iff.rfl

end Bitmap

theorem HeldBitmap.lendPart_snd (h : HeldBitmap) (rect : Rect)
    (actions : HeldBitmap → List BitmapAnswer × HeldBitmap) : (h.lendPart rect actions).2 = h := by
  unfold lendPart
  split
  · rfl
  · rfl

theorem HeldBitmap.lendWritablePart_cases (h : HeldBitmap) (rect : Rect)
    (actions : List BitmapAction) :
    (h.lendWritablePart rect (BitmapAction.runAll actions)).2.displaced = h.displaced
      ∧ h.bitmap.ChangesInPlace
        (h.lendWritablePart rect (BitmapAction.runAll actions)).2.bitmap := by
  unfold lendWritablePart
  split
  · exact ⟨rfl, .nothing⟩
  · split
    · exact ⟨rfl, .nothing⟩
    · rename_i part hpart
      have hloan : (firstStorage ⟨part, []⟩).length = h.bitmap.pixels.toBytes.length := by
        rw [Bitmap.writableView?_eq_some hpart]
        rfl
      have hback := (BitmapAction.length_firstStorage_runAll actions ⟨part, []⟩).trans hloan
      exact ⟨rfl, .pixels _ (h.bitmap.pixels.length_replace hback)⟩

/-- An operation gives the bitmap a palette, or gives it other storage, or leaves the storage to it
and changes something in place. -/
theorem BitmapAction.run_cases (a : BitmapAction) (h : HeldBitmap) :
    (∃ p, a = .setPalette p ∧ (a.run h).2 = { h with bitmap := h.bitmap.setPalette p })
      ∨ (∃ origin bytes format rowSize b, a = .setData origin bytes format rowSize
        ∧ h.bitmap.setData (origin.source bytes) format rowSize = .ok (b, h.bitmap.pixels)
        ∧ (a.run h).2 = ⟨b, h.displaced ++ [h.bitmap.pixels]⟩)
      ∨ ((a.run h).2.displaced = h.displaced ∧ h.bitmap.ChangesInPlace (a.run h).2.bitmap) := by
  have hattempt : ∀ o : Option Bitmap, (∀ b ∈ o, h.bitmap.ChangesInPlace b)
      → (h.attempt o).2.displaced = h.displaced
        ∧ h.bitmap.ChangesInPlace (h.attempt o).2.bitmap := by
    intro o ho
    cases o with
    | none => exact ⟨rfl, .nothing⟩
    | some b => exact ⟨rfl, ho b rfl⟩
  cases a with
  | setPalette p => exact .inl ⟨p, rfl, rfl⟩
  | setData origin bytes format rowSize =>
    right
    rcases h.setData_cases (origin.source bytes) format rowSize with ⟨b, hset, hok⟩ | herror
    · exact .inl ⟨origin, bytes, format, rowSize, b, rfl, hset, congrArg Prod.snd hok⟩
    · right
      have hsame : ((setData origin bytes format rowSize).run h).2 = h := congrArg Prod.snd herror
      rw [hsame]
      exact ⟨rfl, .nothing⟩
  | describe => exact .inr (.inr ⟨rfl, .nothing⟩)
  | row y => exact .inr (.inr ⟨rfl, .nothing⟩)
  | palettize => exact .inr (.inr ⟨rfl, .nothing⟩)
  | write pos value =>
    exact .inr (.inr (hattempt _ fun _ hb => Bitmap.changesInPlace_of_write? hb))
  | writeColor index color =>
    exact .inr (.inr (hattempt _ fun _ hb => Bitmap.changesInPlace_of_writeColor? hb))
  | setBounds r =>
    right; right
    rcases h.setBounds_cases r with ⟨hok, hproper, hmaxX, hmaxY⟩ | herror
    · have hmoved : ((setBounds r).run h).2 = { h with bitmap := { h.bitmap with bounds := r } } :=
        congrArg Prod.snd hok
      rw [hmoved]
      exact ⟨rfl, .bounds ⟨hproper, hmaxX, hmaxY⟩⟩
    · have hsame : ((setBounds r).run h).2 = h := congrArg Prod.snd herror
      rw [hsame]
      exact ⟨rfl, .nothing⟩
  | sub rect actions =>
    have hsame : ((sub rect actions).run h).2 = h := h.lendPart_snd rect (runAll actions)
    rw [hsame]
    exact .inr (.inr ⟨rfl, .nothing⟩)
  | subWritable rect actions => exact .inr (.inr (h.lendWritablePart_cases rect actions))

namespace Bitmap

/-! ### What comes next -/

/-- What a bitmap can be followed by: a part of it, or the bitmap itself after an operation or with
other storage. -/
inductive Follows (b : Bitmap) : Bitmap → Prop
  | part {part : Bitmap} (h : IsPart b part) : Follows b part
  | run (a : BitmapAction) (displaced : List PixelSource) :
      Follows b (a.run ⟨b, displaced⟩).2.bitmap
  | setData {b' : Bitmap} {pixels old : PixelSource} {format : PixelFormat} {rowSize : UInt16}
      (h : b.setData pixels format rowSize = .ok (b', old)) : Follows b b'

variable {b b' : Bitmap}

theorem ChangesInPlace.palette_trailing {offset : Nat} (h : ChangesInPlace b b')
    (ht : b'.palette = .trailing offset) : b.palette = .trailing offset := by
  cases h with
  | nothing => exact ht
  | pixels pixels hlength => exact ht
  | color hcolors index color => cases ht
  | bounds hwithin => exact ht

/-- A palette behind the pixels has always been there. -/
theorem Follows.palette_trailing {offset : Nat} (h : Follows b b')
    (ht : b'.palette = .trailing offset) : b.palette = .trailing offset ∧ b'.SharesLayout b := by
  cases h with
  | part h =>
    refine ⟨?_, h.sharesLayout⟩
    obtain ⟨pixels, bounds, rfl, -⟩ := h.eq_lend
    exact PaletteSource.lend_eq_trailing_iff.1 ht
  | run a displaced =>
    rcases a.run_cases ⟨b, displaced⟩ with ⟨p, -, hrun⟩ | ⟨_, _, _, _, _, -, hset, hrun⟩ | ⟨-, h⟩
    · rw [hrun] at ht
      cases ht
    · rw [hrun] at ht
      exact absurd ht ((palette_of_setData hset).2.1 offset)
    · exact ⟨h.palette_trailing ht, h.sharesLayout⟩
  | setData h => exact absurd ht ((palette_of_setData h).2.1 offset)

end Bitmap

end DialGraphics
