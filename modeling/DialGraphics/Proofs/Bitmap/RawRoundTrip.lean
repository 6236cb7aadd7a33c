import DialGraphics.Proofs.Bitmap.Filled
import DialGraphics.Proofs.Machine.RawFile
import DialGraphics.Proofs.Resource.ZeroCopy

/-!
# Raw files of bitmaps

What a bitmap is written to is accepted, and the bitmap that is read back looks like it, whether the
bytes are viewed or loaded as a resource. The header holds the shape of the bitmap, and exactly its
pixels and its palette follow.
-/

namespace DialGraphics

namespace RawLayout

variable {rowSize flags width height : UInt16} {pixels : Bytes} {palette : List Color}

theorem wordAt_encode :
    Bytes.wordAt (encode rowSize flags width height pixels palette) 0 = rowSize
      ∧ Bytes.wordAt (encode rowSize flags width height pixels palette) 2 = flags
      ∧ Bytes.wordAt (encode rowSize flags width height pixels palette) 8 = width
      ∧ Bytes.wordAt (encode rowSize flags width height pixels palette) 10 = height :=
  ⟨Bytes.word16_ofWord16 rowSize, Bytes.word16_ofWord16 flags, Bytes.word16_ofWord16 width,
    Bytes.word16_ofWord16 height⟩

theorem length_encode : (encode rowSize flags width height pixels palette).length
    = 12 + pixels.length + palette.length := by
  simp only [encode, List.length_append, Bytes.length_ofWord16, List.length_map, List.length_cons,
    List.length_nil]

theorem drop_encode : (encode rowSize flags width height pixels palette).drop headerSize
    = pixels ++ palette.map Color.argb := rfl

theorem isPng_encode : isPng (encode rowSize flags width height pixels palette) = false := by
  have hfront : (encode rowSize flags width height pixels palette).take 8
      = Bytes.ofWord16 rowSize ++ Bytes.ofWord16 flags ++ [0, 0, 0, 0] := rfl
  rw [isPng, hfront, beq_eq_false_iff_ne]
  intro h
  -- the fifth byte is zero, and that of the signature is not
  have hfifth := congrArg (·[4]?) h
  exact absurd hfifth (by decide : some (0 : UInt8) ≠ some 13)

end RawLayout

namespace Bitmap

open RawLayout (HasHeader IsAcceptable ofHeader storedLength)

variable {size : Size} {format : PixelFormat} {b b' : Bitmap}

/-! ### The header of a bitmap -/

theorem toNat_toUInt16 {side : Int16} (h : 0 ≤ side.toInt) :
    side.toUInt16.toNat = side.toInt.toNat :=
  Int16.toNat_toUInt16_of_le (Int16.le_iff_toInt_le.2 h)

theorem ofNat_toUInt16 {side : Int16} (h : 0 ≤ side.toInt) :
    Int16.ofNat side.toUInt16.toNat = side := by
  have hlt := side.toInt_lt
  rw [toNat_toUInt16 h]
  apply Int16.toInt_inj.1
  rw [RawLayout.toInt_ofNat_of_le (by unfold RawLayout.maxSide; omega)]
  omega

theorem IsFilled.toNat_infoFlags (hb : IsFilled size format b) :
    ∃ own, own ≤ 1 ∧ format.number ≤ 5
      ∧ (UInt16.ofNat b.infoFlags).toNat = 1 + format.number * 2 + own * 16 + 4096 := by
  obtain ⟨bytes, howned, -⟩ := hb.pixels
  have hflags : b.infoFlags = 1 + format.number * 2 + (if b.ownsPalette then 16 else 0) + 4096 := by
    rw [infoFlags, howned, hb.format_eq, hb.version]
    rfl
  have hnumber : format.number ≤ 5 := by cases format <;> decide
  rw [UInt16.toNat_ofNat', hflags]
  cases b.ownsPalette with
  | false =>
    refine ⟨0, by decide, hnumber, ?_⟩
    simp only [Bool.false_eq_true, if_false]
    omega
  | true =>
    refine ⟨1, by decide, hnumber, ?_⟩
    simp only [if_true]
    omega

theorem IsFilled.colors_cases (hb : IsFilled size format b) :
    (b.palette = .absent ∧ format.paletteSize = 0)
      ∨ ∃ colors, b.palette = .given (.owned colors) ∧ colors.length = format.paletteSize
        ∧ 0 < format.paletteSize := by
  have hcolors := hb.colors
  cases hpalette : b.palette with
  | absent =>
    rw [hpalette] at hcolors
    exact Or.inl ⟨rfl, if_neg (Bool.eq_false_iff.1 hcolors)⟩
  | trailing offset =>
    rw [hpalette] at hcolors
    exact hcolors.elim
  | given palette =>
    cases palette with
    | borrowed colors =>
      rw [hpalette] at hcolors
      exact hcolors.elim
    | owned colors =>
      rw [hpalette] at hcolors
      obtain ⟨hp, hlength⟩ := hcolors
      have hpos : 0 < format.paletteSize := by
        rw [PixelFormat.paletteSize, if_pos hp]
        exact Nat.two_pow_pos _
      exact Or.inr ⟨colors, rfl, hlength, hpos⟩

theorem IsFilled.data_eq (hb : IsFilled size format b) : b.data = b.pixels.toBytes := by
  apply data_of_not_trailing
  intro offset hoffset
  rcases hb.colors_cases with ⟨hpalette, -⟩ | ⟨colors, hpalette, -, -⟩
  · cases hpalette.symm.trans hoffset
  · cases hpalette.symm.trans hoffset

theorem IsFilled.length_data (hb : IsFilled size format b) : b.data.length
    = storedLength format b.rowSize.toNat size.w.toInt.toNat size.h.toInt.toNat := by
  obtain ⟨bytes, howned, hlength⟩ := hb.pixels
  rw [hb.data_eq, howned]
  exact hlength

theorem IsFilled.length_colors (hb : IsFilled size format b) :
    (b.colors?.getD []).length = format.paletteSize := by
  unfold colors?
  rcases hb.colors_cases with ⟨hpalette, hzero⟩ | ⟨colors, hpalette, hlength, -⟩
  · rw [hpalette, hzero]
    rfl
  · rw [hpalette, ← hlength]
    rfl

theorem IsFilled.wordAt_toRaw (hb : IsFilled size format b) :
    b.toRaw.wordAt 0 = b.rowSize ∧ b.toRaw.wordAt 2 = UInt16.ofNat b.infoFlags
      ∧ b.toRaw.wordAt 8 = size.w.toUInt16 ∧ b.toRaw.wordAt 10 = size.h.toUInt16 := by
  have hsize : b.bounds.size = size := by rw [hb.bounds]; rfl
  rw [← hsize]
  exact RawLayout.wordAt_encode

theorem IsFilled.length_toRaw (hb : IsFilled size format b) :
    b.toRaw.length = 12 + b.data.length + format.paletteSize := by
  rw [toRaw, RawLayout.length_encode, hb.length_colors]

/-- The header that is written for a bitmap says what the bitmap is like. -/
theorem IsFilled.ofHeader_toRaw (hb : IsFilled size format b) :
    ofHeader b.toRaw format
      = ⟨format, 1, b.rowSize, size, b.data.length, format.paletteSize⟩ := by
  obtain ⟨hw, hh⟩ := Size.isNegative_eq_false_iff.1 hb.nonneg
  obtain ⟨hrowSize, hflags, hwidth, hheight⟩ := hb.wordAt_toRaw
  obtain ⟨own, hown, hnumber, hbits⟩ := hb.toNat_infoFlags
  have hversion : RawLayout.versionOfFlags (UInt16.ofNat b.infoFlags) = 1 := by
    have hhigh : (UInt16.ofNat b.infoFlags).toNat / 4096 = 1 := by omega
    rw [RawLayout.versionOfFlags, hhigh]
    rfl
  rw [ofHeader, hrowSize, hflags, hwidth, hheight, hversion, ofNat_toUInt16 hw, ofNat_toUInt16 hh,
    toNat_toUInt16 hw, toNat_toUInt16 hh, hb.length_data]

theorem IsFilled.isAcceptable_toRaw (hb : IsFilled size format b) {platform : Platform}
    (hcurrent : platform.compat = .current) : IsAcceptable b.toRaw platform format := by
  obtain ⟨hw, hh⟩ := Size.isNegative_eq_false_iff.1 hb.nonneg
  have hwide := size.w.toInt_lt
  have htall := size.h.toInt_lt
  obtain ⟨hrowSize, hflags, hwidth, hheight⟩ := hb.wordAt_toRaw
  obtain ⟨own, hown, hnumber, hbits⟩ := hb.toNat_infoFlags
  have hlength := hb.length_toRaw
  refine ⟨⟨by omega, ?_, ?_, ?_, ?_, ?_⟩, ?_⟩
  · rw [hflags]
    omega
  · intro hlegacy
    cases hlegacy.symm.trans hcurrent
  · rw [hwidth, toNat_toUInt16 hw]
    omega
  · rw [hheight, toNat_toUInt16 hh]
    omega
  · rw [hrowSize, hwidth, hheight, toNat_toUInt16 hw, toNat_toUInt16 hh]
    exact hb.hasRows
  · apply Nat.le_of_eq
    rw [hrowSize, hwidth, hheight, toNat_toUInt16 hw, toNat_toUInt16 hh, ← hb.length_data, hlength]

/-! ### Reading back -/

theorem ofLayout_eq (pixels : PixelSource) (l : RawLayout) :
    ofLayout pixels l = (rowsFor l.format l.size).map fun rows =>
      ⟨pixels, layoutPalette l, l.rowSize, l.format, l.version, .ofSize l.size, rows⟩ := by
  cases hl : l.format with
  | circular =>
    simp only [ofLayout, rowsFor, hl]
    cases CircularRow.table l.size with
    | error e => rfl
    | ok rows => rfl
  | _ =>
    simp only [ofLayout, hl]
    rfl

theorem looksLike_of_rows (hformat : b.format = b'.format) (hversion : b.version = b'.version)
    (hbounds : b.bounds = b'.bounds) (hrowSize : b.rowSize = b'.rowSize) (hdata : b.data = b'.data)
    (hcolors : b.colors? = b'.colors?) (hrows : b.rows = b'.rows) : b.LooksLike b' := by
  refine ⟨hformat, hversion, hbounds, hrowSize, hdata, hcolors, fun y => ?_⟩
  simp only [row?, hrows, hdata, hrowSize, hbounds]

/-- The bitmap whose pixels and palette are the bytes behind the header. -/
theorem IsFilled.exists_ofLayout_toRaw (hb : IsFilled size format b) {pixels : PixelSource}
    (hpixels : pixels.toBytes = b.toRaw.drop RawLayout.headerSize) :
    ∃ view, ofLayout pixels (ofHeader b.toRaw format) = .ok view ∧ view.LooksLike b := by
  rw [toRaw, RawLayout.drop_encode] at hpixels
  rw [ofLayout_eq, hb.ofHeader_toRaw]
  simp only [hb.rows]
  refine ⟨_, rfl, looksLike_of_rows hb.format_eq.symm hb.version.symm hb.bounds.symm rfl ?_ ?_ rfl⟩
  · rcases hb.colors_cases with ⟨hpalette, hzero⟩ | ⟨colors, hpalette, -, hpos⟩
    · have hnone : b.colors?.getD [] = [] := by rw [colors?, hpalette]; rfl
      simp only [data, layoutPalette, hzero, Nat.lt_irrefl, if_false]
      rw [hpixels, hnone]
      exact List.append_nil _
    · simp only [data, layoutPalette, hpos, if_true]
      rw [hpixels]
      exact List.take_left
  · rcases hb.colors_cases with ⟨hpalette, hzero⟩ | ⟨colors, hpalette, hlength, hpos⟩
    · simp only [colors?, hpalette, layoutPalette, hzero, Nat.lt_irrefl, if_false]
    · have hcolors : b.colors? = some colors := by rw [colors?, hpalette]; rfl
      have hslice : (b.data ++ colors.map Color.argb).slice? b.data.length format.paletteSize
          = some (colors.map Color.argb) := by
        rw [Bytes.slice?_eq, if_pos (by simp [hlength]), List.drop_left, ← hlength,
          ← List.length_map Color.argb, List.take_length]
      rw [hcolors, Option.getD_some] at hpixels
      rw [hcolors]
      simp only [colors?, layoutPalette, hpos, if_true]
      rw [hpixels, hslice, Option.map_some, List.map_map]
      exact congrArg some (List.map_id colors)

theorem IsFilled.exists_ofRaw_toRaw (hb : IsFilled size format b) {platform : Platform}
    (hcurrent : platform.compat = .current) :
    ∃ view, ofRaw b.toRaw platform = .ok view ∧ view.LooksLike b := by
  have haccepted := hb.isAcceptable_toRaw hcurrent
  have hparse := RawLayout.parse_eq_ok_iff.2 ⟨format, haccepted.toHasHeader, rfl⟩
  have hlong : ¬ b.toRaw.length < (ofHeader b.toRaw format).totalLength :=
    Nat.not_lt.2 haccepted.covers
  rw [ofRaw_eq, hparse]
  simp only [Except.bind, if_neg hlong]
  exact hb.exists_ofLayout_toRaw rfl

/-- A raw file of a bitmap is short enough for a copy in memory. -/
theorem IsFilled.length_toRaw_lt (hb : IsFilled size format b) :
    b.toRaw.length + alignmentPad < allocationLimit := by
  have hwide := size.w.toInt_lt
  have htall := size.h.toInt_lt
  have hpixels := RawLayout.storedLength_le format b.rowSize.toNat_lt
    (show size.w.toInt.toNat ≤ 32767 by omega) (show size.h.toInt.toNat ≤ 32767 by omega)
  have hpalette := format.paletteSize_le
  rw [hb.length_toRaw, hb.length_data, alignmentPad, allocationLimit]
  omega

/-- A resource that holds the raw file of a bitmap gives a bitmap that looks like it. -/
theorem IsFilled.exists_ofResource_toRaw (hb : IsFilled size format b) {platform : Platform}
    (hcurrent : platform.compat = .current) {m : ResourceMap} {key : ResourceKey}
    (hstore : m.store.Describes key b.toRaw) :
    ∃ loaded, (ofResource m key platform).1 = .ok loaded ∧ loaded.LooksLike b := by
  have hlength := hb.length_toRaw
  have hne : b.toRaw ≠ [] := by
    intro hempty
    rw [hempty] at hlength
    simp only [List.length_nil] at hlength
    omega
  have hload : ∃ r, (m.load key true).1 = .ok r ∧ r.toBytes = b.toRaw := by
    by_cases hmapped : m.mappable? key = none
    · rcases ResourceMap.load_copied hne hstore hmapped true with ⟨copy, hcopy, hsame⟩ | ⟨hlarge, -⟩
      · exact ⟨.heap copy, hcopy, hsame⟩
      · exact absurd hlarge (Nat.not_le.2 hb.length_toRaw_lt)
    · exact ⟨_, ResourceMap.load_inPlace hne hstore hmapped true, rfl⟩
  obtain ⟨r, hr, hbytes⟩ := hload
  have haccepted := hb.isAcceptable_toRaw hcurrent
  have hparse := RawLayout.parse_eq_ok_iff.2 ⟨format, haccepted.toHasHeader, rfl⟩
  have hexact : (ofHeader b.toRaw format).totalLength = b.toRaw.length := by
    rw [hb.ofHeader_toRaw, hlength]
    rfl
  have hraw : isPng r.toBytes = false := by
    rw [hbytes]
    exact RawLayout.isPng_encode
  rw [ofResource_eq, hr]
  simp only [Except.bind, hraw, Bool.false_eq_true, if_false]
  rw [ofRawResource_eq, hbytes, hparse]
  simp only [Except.bind, if_pos hexact]
  apply hb.exists_ofLayout_toRaw
  show (pixelsOfRaw r).toBytes = _
  rw [toBytes_pixelsOfRaw, hbytes]

/-! ### Acceptance and the way back -/

/-- Reading a raw file never stops the machine, whatever the bytes are. A file is accepted exactly
if its header is that of a bitmap the platform can show and no bytes are missing. The file of a
bitmap that was made in memory, with whatever contents were written into it, is accepted, as a view
and as a resource, and looks like that bitmap. -/
theorem raw_accepted_and_read_back :
    (∀ bytes platform, Machine.ofRaw bytes platform = Machine.settled (ofRaw bytes platform)
      ∧ ((∃ b, ofRaw bytes platform = .ok b) ↔ ∃ format, IsAcceptable bytes platform format))
    ∧ ∀ fresh b, IsFresh fresh → Relation.ReflTransGen IsWrite fresh b →
      ∀ platform : Platform, platform.compat = .current →
        (∃ view, ofRaw b.toRaw platform = .ok view ∧ view.LooksLike b)
          ∧ ∀ (m : ResourceMap) (key : ResourceKey), m.store.Describes key b.toRaw →
            ∃ loaded, (ofResource m key platform).1 = .ok loaded ∧ loaded.LooksLike b := by
  refine ⟨fun bytes platform => ⟨Machine.ofRaw_eq bytes platform, exists_ofRaw_iff⟩, ?_⟩
  intro fresh b hfresh hwrites platform hcurrent
  obtain ⟨size, format, hfilled⟩ := hfresh.exists_isFilled
  have hb := hfilled.of_writes hwrites
  exact ⟨hb.exists_ofRaw_toRaw hcurrent, fun m key hstore =>
    hb.exists_ofResource_toRaw hcurrent hstore⟩

/-- A bitmap of two rows with one of its bytes and one of its colours written. -/
theorem raw_accepted_and_read_back_twoWrites :
    ∃ fresh written b, blank ⟨5, 2⟩ .palette2 .standard = .ok fresh
      ∧ fresh.write? 1 27 = some written ∧ written.writeColor? 2 ⟨195⟩ = some b
      ∧ b.toRaw = [2, 0, 23, 16, 0, 0, 0, 0, 5, 0, 2, 0, 0, 27, 0, 0, 0, 0, 195, 0]
      ∧ (∃ view, ofRaw b.toRaw .standard = .ok view ∧ view.LooksLike b)
      ∧ ∃ loaded, (ofResource
          { store := Store.ofCatalog [⟨⟨0, 1⟩, b.toRaw, true, b.toRaw.length, 0⟩] } ⟨0, 1⟩
          .standard).1 = .ok loaded
        ∧ loaded.LooksLike b := by
  have hfresh : ∃ fresh, blank ⟨5, 2⟩ .palette2 .standard = .ok fresh := ⟨_, rfl⟩
  obtain ⟨fresh, hblank⟩ := hfresh
  have hwritten : ∃ written, fresh.write? 1 27 = some written := by
    cases hblank
    exact ⟨_, rfl⟩
  obtain ⟨written, hwrite⟩ := hwritten
  have hb : ∃ b, written.writeColor? 2 ⟨195⟩ = some b
      ∧ b.toRaw = [2, 0, 23, 16, 0, 0, 0, 0, 5, 0, 2, 0, 0, 27, 0, 0, 0, 0, 195, 0] := by
    cases hblank
    cases hwrite
    exact ⟨_, rfl, rfl⟩
  obtain ⟨b, hcolor, hbytes⟩ := hb
  obtain ⟨hview, hload⟩ := raw_accepted_and_read_back.2 fresh b (.blank hblank)
    ((Relation.ReflTransGen.single (.pixel hwrite)).tail (.color hcolor)) .standard rfl
  exact ⟨fresh, written, b, hblank, hwrite, hcolor, hbytes, hview,
    hload _ _ (Store.describes_ofCatalog ..)⟩

end Bitmap

end DialGraphics
