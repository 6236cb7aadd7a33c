import DialGraphics.Proofs.Bitmap.Sound
import DialGraphics.Workspace.BitmapAction

/-!
# Operations on bitmaps

What each operation does to a bitmap, and that all of them keep it well-formed, whatever is done to
a writable part of it in the meantime.
-/

namespace DialGraphics

/-! ### Other bytes in the same place -/

theorem PixelSource.length_replace (p : PixelSource) {bytes : Bytes}
    (h : bytes.length = p.toBytes.length) :
    (p.replace bytes).toBytes.length = p.toBytes.length := by
  cases p with
  | resource r =>
    cases r with
    | mapped key old => rfl
    | heap copy =>
      show (copy.replace bytes).toBytes.length = copy.toBytes.length
      rw [HeapBytes.length_toBytes, HeapBytes.length_toBytes]
      rfl
  | owned old => exact h
  | borrowed old => rfl
  | loaned old => exact h

theorem PaletteSource.lend_eq_trailing_iff {p : PaletteSource} {offset : Nat} :
    p.lend = .trailing offset ↔ p = .trailing offset := by
  cases p with
  | absent => exact Iff.rfl
  | given palette => exact ⟨(fun h => nomatch h), fun h => nomatch h⟩
  | trailing offset => exact Iff.rfl

namespace Bitmap

variable {b b' : Bitmap}

/-! ### What the operations do -/

theorem write?_eq_some {pos : Nat} {value : UInt8} (h : b.write? pos value = some b') :
    ∃ pixels, b' = { b with pixels } ∧ pixels.toBytes.length = b.pixels.toBytes.length := by
  unfold write? at h
  split at h
  · cases h
  · split at h
    · cases h
      exact ⟨_, rfl, b.pixels.length_replace (List.length_set ..)⟩
    · cases h

theorem writeColor?_eq_some {index : Nat} {color : Color}
    (h : b.writeColor? index color = some b') :
    (∃ pixels, b' = { b with pixels } ∧ pixels.toBytes.length = b.pixels.toBytes.length)
      ∨ ∃ palette, b' = b.setPalette palette := by
  unfold writeColor? at h
  split at h
  · cases h
  · split at h
    · split at h
      · cases h
        exact Or.inl ⟨_, rfl, b.pixels.length_replace (List.length_set ..)⟩
      · cases h
        exact Or.inr ⟨_, rfl⟩
    · cases h

theorem setBounds_cases (b : Bitmap) (r : Rect) :
    (b.setBounds r = .ok { b with bounds := r } ∧ r.IsProper
        ∧ r.maxX ≤ b.storageSize.w.toInt ∧ r.maxY ≤ b.storageSize.h.toInt)
      ∨ b.setBounds r = .error .badParameter := by
  by_cases hgood : (r.size.isNegative || !(Rect.ofSize b.storageSize).contains r) = true
  · right
    rw [setBounds, if_pos hgood]
  · left
    refine ⟨by rw [setBounds, if_neg hgood], ?_⟩
    simp only [Bool.or_eq_true, Bool.not_eq_true', not_or, Bool.not_eq_false] at hgood
    obtain ⟨hsize, hinside⟩ := hgood
    obtain ⟨hwidth, hheight⟩ := Size.isNegative_eq_false_iff.1 (Bool.eq_false_iff.2 hsize)
    have hw := b.storageSize.w.toInt_lt
    have hh := b.storageSize.h.toInt_lt
    have hmaxX := Rect.maxX_ofSize b.storageSize
    have hmaxY := Rect.maxY_ofSize b.storageSize
    have hcolumns : 0 ≤ r.columns.length.toInt := hwidth
    have hrows : 0 ≤ r.rows.length.toInt := hheight
    rw [Rect.contains, Bool.and_eq_true, Interval.contains_iff hcolumns,
      Interval.contains_iff hrows] at hinside
    obtain ⟨⟨hstartX, hstopX⟩, hstartY, hstopY⟩ := hinside
    have hstopX : r.maxX ≤ (Rect.ofSize b.storageSize).maxX := hstopX
    have hstopY : r.maxY ≤ (Rect.ofSize b.storageSize).maxY := hstopY
    refine ⟨⟨⟨hstartX, hcolumns, ?_⟩, ⟨hstartY, hrows, ?_⟩⟩, ?_, ?_⟩
    · show r.maxX ≤ 32767
      omega
    · show r.maxY ≤ 32767
      omega
    · omega
    · omega

theorem neededFor_eq_error {bounds : Rect} {format : PixelFormat} {rowSize : UInt16}
    {e : DecodeError} (h : neededFor bounds format rowSize = .error e) : e = .badParameter := by
  unfold neededFor at h
  split at h
  · unfold CircularRow.table at h
    split at h
    · cases h
      rfl
    · cases h
  · simp only at h
    split at h
    · cases h
      rfl
    · cases h

theorem setData_cases (b : Bitmap) (pixels : PixelSource) (format : PixelFormat)
    (rowSize : UInt16) :
    (∃ b', b.setData pixels format rowSize = .ok (b', b.pixels) ∧ b'.pixels = pixels
        ∧ b'.format = format ∧ b'.bounds = b.bounds ∧ (∀ offset, b'.palette ≠ .trailing offset)
        ∧ ((format ≠ .circular ∧ b'.rows = none ∧ b'.rowSize = rowSize
            ∧ format.rowStride (Interval.clamp b.bounds.maxX 0 65535).toNat ≤ rowSize.toNat
            ∧ rowSize.toNat * b.bounds.maxY.toNat ≤ pixels.toBytes.length)
          ∨ ∃ rows, format = .circular ∧ b'.rows = some rows
            ∧ CircularRow.table b.bounds.size = .ok rows
            ∧ CircularRow.storedSize rows ≤ pixels.toBytes.length ∧ b'.rowSize = 0))
      ∨ b.setData pixels format rowSize = .error .badParameter := by
  unfold setData
  cases hneeded : neededFor b.bounds format rowSize with
  | error e =>
    rw [neededFor_eq_error hneeded]
    exact Or.inr rfl
  | ok result =>
    obtain ⟨needed, rows⟩ := result
    simp only
    by_cases hshort : pixels.toBytes.length < needed
    · rw [if_pos hshort]
      exact Or.inr rfl
    · rw [if_neg hshort]
      refine Or.inl ⟨_, rfl, rfl, rfl, rfl, ?_, ?_⟩
      · intro offset hoffset
        simp only at hoffset
        split at hoffset
        · cases hoffset
        · rename_i hother
          exact hother offset hoffset
      · by_cases hformat : format = .circular
        · right
          rw [hformat] at hneeded
          obtain ⟨t, ht, hpair⟩ := map_eq_ok_iff.1 hneeded
          cases hpair
          exact ⟨t, hformat, rfl, ht, Nat.le_of_not_lt hshort, rfl⟩
        · left
          unfold neededFor at hneeded
          split at hneeded
          · exact absurd rfl hformat
          · simp only at hneeded
            split at hneeded
            · cases hneeded
            · rename_i hwide
              cases hneeded
              exact ⟨hformat, rfl, rfl, Nat.le_of_not_lt hwide, Nat.le_of_not_lt hshort⟩

/-! ### What they keep -/

theorem WellFormed.withPixels (hb : b.WellFormed) {pixels : PixelSource}
    (h : pixels.toBytes.length = b.pixels.toBytes.length) :
    WellFormed { b with pixels } where
  proper := hb.proper
  isSome_rows := hb.isSome_rows
  stacked := hb.stacked
  stored := by
    intro rows hrows
    show CircularRow.storedSize rows ≤ pixels.toBytes.length
    rw [h]
    exact hb.stored rows hrows
  count_le := hb.count_le
  palette_fixed := hb.palette_fixed

theorem WellFormed.withBounds (hb : b.WellFormed) {bounds : Rect} (h : bounds.IsProper) :
    WellFormed { b with bounds } where
  proper := h
  isSome_rows := hb.isSome_rows
  stacked := hb.stacked
  stored := hb.stored
  count_le := hb.count_le
  palette_fixed := hb.palette_fixed

theorem WellFormed.setData (hb : b.WellFormed) {pixels old : PixelSource} {format : PixelFormat}
    {rowSize : UInt16} (h : b.setData pixels format rowSize = .ok (b', old)) : b'.WellFormed := by
  rcases b.setData_cases pixels format rowSize with hok | herror
  · obtain ⟨b₁, hb₁, hpixels, hformat, hbounds, hpalette, hlayout⟩ := hok
    cases hb₁.symm.trans h
    have hproper : b'.bounds.IsProper := by
      rw [hbounds]
      exact hb.proper
    rcases hlayout with ⟨hfixed, hrows, -⟩ | ⟨rows, hcircular, hrows, htable, hstored, -⟩
    · exact wellFormed_of_fixed hproper hrows (by rw [hformat]; exact hfixed)
    · exact wellFormed_of_table hproper htable hrows (hformat.trans hcircular)
        (by rw [hpixels]; exact hstored) hpalette
  · cases herror.symm.trans h

theorem WellFormed.view (hb : b.WellFormed) {bounds : Rect} (h : bounds.IsProper) :
    (b.view bounds).WellFormed where
  proper := h
  isSome_rows := hb.isSome_rows
  stacked := hb.stacked
  stored := hb.stored
  count_le := hb.count_le
  palette_fixed := fun offset hoffset =>
    hb.palette_fixed offset (PaletteSource.lend_eq_trailing_iff.1 hoffset)

theorem writableView?_eq_some {bounds : Rect} (h : b.writableView? bounds = some b') :
    b' = { b with pixels := .loaned b.pixels.toBytes, palette := b.palette.lend, bounds } := by
  unfold writableView? at h
  split at h
  · cases h
    rfl
  · cases h

theorem WellFormed.writableView? (hb : b.WellFormed) {bounds : Rect} (hproper : bounds.IsProper)
    (h : b.writableView? bounds = some b') : b'.WellFormed := by
  rw [writableView?_eq_some h]
  -- only the kind of the pixels tells a writable view from a read-only one
  exact (hb.view hproper).withPixels rfl

end Bitmap

/-! ### Steps -/

namespace HeldBitmap

variable {h h' : HeldBitmap}

/-- All that an operation can do: nothing, write to the pixels, bring in a palette, move the bounds
inside the storage, or replace the storage. -/
inductive Step (h : HeldBitmap) : HeldBitmap → Prop
  | stay : Step h h
  | write (pixels : PixelSource)
      (hlength : pixels.toBytes.length = h.bitmap.pixels.toBytes.length) :
      Step h { h with bitmap := { h.bitmap with pixels } }
  | setPalette (palette : Palette) : Step h { h with bitmap := h.bitmap.setPalette palette }
  | setBounds (bounds : Rect) (hproper : bounds.IsProper)
      (hmaxX : bounds.maxX ≤ h.bitmap.storageSize.w.toInt)
      (hmaxY : bounds.maxY ≤ h.bitmap.storageSize.h.toInt) :
      Step h { h with bitmap := { h.bitmap with bounds } }
  | setData {b pixels format rowSize}
      (hset : h.bitmap.setData pixels format rowSize = .ok (b, h.bitmap.pixels)) :
      Step h ⟨b, h.displaced ++ [h.bitmap.pixels]⟩

theorem Step.length_firstStorage (step : Step h h') :
    h'.firstStorage.length = h.firstStorage.length := by
  unfold firstStorage
  cases step with
  | stay => rfl
  | write pixels hlength =>
    cases h.displaced with
    | nil => exact hlength
    | cons first others => rfl
  | setPalette palette => rfl
  | setBounds bounds hproper hmaxX hmaxY => rfl
  | setData hset =>
    -- what was in use is put aside, and is the first storage if nothing was before
    cases h.displaced with
    | nil => rfl
    | cons first others => rfl

theorem Step.wellFormed (step : Step h h') (hb : h.bitmap.WellFormed) : h'.bitmap.WellFormed := by
  cases step with
  | stay => exact hb
  | write pixels hlength => exact hb.withPixels hlength
  | setPalette palette => exact hb.setPalette palette
  | setBounds bounds hproper hmaxX hmaxY => exact hb.withBounds hproper
  | setData hset => exact hb.setData hset

theorem setBounds_cases (h : HeldBitmap) (r : Rect) :
    (h.setBounds r = (.ok (), { h with bitmap := { h.bitmap with bounds := r } }) ∧ r.IsProper
        ∧ r.maxX ≤ h.bitmap.storageSize.w.toInt ∧ r.maxY ≤ h.bitmap.storageSize.h.toInt)
      ∨ h.setBounds r = (.error .badParameter, h) := by
  rcases h.bitmap.setBounds_cases r with ⟨hok, hinside⟩ | herror
  · exact Or.inl ⟨by rw [setBounds, hok], hinside⟩
  · exact Or.inr (by rw [setBounds, herror])

theorem setData_cases (h : HeldBitmap) (pixels : PixelSource) (format : PixelFormat)
    (rowSize : UInt16) :
    (∃ b, h.bitmap.setData pixels format rowSize = .ok (b, h.bitmap.pixels)
        ∧ h.setData pixels format rowSize = (.ok (), ⟨b, h.displaced ++ [h.bitmap.pixels]⟩))
      ∨ h.setData pixels format rowSize = (.error .badParameter, h) := by
  rcases h.bitmap.setData_cases pixels format rowSize with ⟨b, hb, -⟩ | herror
  · exact Or.inl ⟨b, hb, by rw [setData, hb]⟩
  · exact Or.inr (by rw [setData, herror])

theorem step_attempt {o : Option Bitmap} (ho : ∀ b ∈ o, Step h { h with bitmap := b }) :
    Step h (h.attempt o).2 := by
  cases o with
  | none => exact .stay
  | some b => exact ho b rfl

theorem step_setBounds (h : HeldBitmap) (r : Rect) : Step h (h.setBounds r).2 := by
  rcases h.setBounds_cases r with ⟨hok, hproper, hmaxX, hmaxY⟩ | herror
  · rw [hok]
    exact .setBounds r hproper hmaxX hmaxY
  · rw [herror]
    exact .stay

theorem step_setData (h : HeldBitmap) (pixels : PixelSource) (format : PixelFormat)
    (rowSize : UInt16) : Step h (h.setData pixels format rowSize).2 := by
  rcases h.setData_cases pixels format rowSize with ⟨b, hset, hok⟩ | herror
  · rw [hok]
    exact .setData hset
  · rw [herror]
    exact .stay

theorem step_lendPart (h : HeldBitmap) (rect : Rect)
    (actions : HeldBitmap → List BitmapAnswer × HeldBitmap) :
    Step h (h.lendPart rect actions).2 := by
  unfold lendPart
  split
  · exact .stay
  · exact .stay

theorem step_lendWritablePart (h : HeldBitmap) (rect : Rect)
    {actions : HeldBitmap → List BitmapAnswer × HeldBitmap}
    (hactions : ∀ h, (actions h).2.firstStorage.length = h.firstStorage.length) :
    Step h (h.lendWritablePart rect actions).2 := by
  unfold lendWritablePart
  split
  · exact .stay
  · split
    · exact .stay
    · rename_i part hpart
      have hloan : (firstStorage ⟨part, []⟩).length = h.bitmap.pixels.toBytes.length := by
        rw [Bitmap.writableView?_eq_some hpart]
        rfl
      exact .write _ (h.bitmap.pixels.length_replace ((hactions _).trans hloan))

end HeldBitmap

/-! ### Sequences of operations -/

-- an operation on a part has a sequence of operations inside, so both are done in one recursion
mutual

theorem BitmapAction.step_run (a : BitmapAction) (h : HeldBitmap) : h.Step (a.run h).2 := by
  cases a with
  | describe => exact .stay
  | row y => exact .stay
  | palettize => exact .stay
  | setPalette palette => exact .setPalette palette
  | setBounds r => exact h.step_setBounds r
  | setData origin bytes format rowSize => exact h.step_setData (origin.source bytes) format rowSize
  | write pos value =>
    apply HeldBitmap.step_attempt
    intro b hb
    obtain ⟨pixels, rfl, hlength⟩ := Bitmap.write?_eq_some hb
    exact .write pixels hlength
  | writeColor index color =>
    apply HeldBitmap.step_attempt
    intro b hb
    rcases Bitmap.writeColor?_eq_some hb with ⟨pixels, rfl, hlength⟩ | ⟨palette, rfl⟩
    · exact .write pixels hlength
    · exact .setPalette palette
  | sub rect actions => exact h.step_lendPart rect (runAll actions)
  | subWritable rect actions =>
    -- whatever storage the part is given, the one that it had on loan comes back as long as it was
    exact h.step_lendWritablePart rect (length_firstStorage_runAll actions)

theorem BitmapAction.length_firstStorage_runAll (actions : List BitmapAction) (h : HeldBitmap) :
    (runAll actions h).2.firstStorage.length = h.firstStorage.length := by
  cases actions with
  | nil => rfl
  | cons a actions =>
    have hrest := length_firstStorage_runAll actions (a.run h).2
    exact hrest.trans (step_run a h).length_firstStorage

end

end DialGraphics
