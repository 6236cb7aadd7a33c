import DialGraphics.Bitmap.PixelAt
import DialGraphics.Proofs.Bitmap.Palettes
import DialGraphics.Proofs.Bitmap.Views

/-!
# An entry for each pixel value

Pixel values are looked up in the palette. There is an entry for each of them in every palette that
a bitmap is made with. A palette that comes later is not looked at, nor is one that is there when
the format changes.
-/

namespace DialGraphics

theorem PixelFormat.valueAt?_lt {f : PixelFormat} {row : Bytes} {x value : Nat}
    (h : f.valueAt? row x = some value) : value < 2 ^ f.bitsPerPixel := by
  obtain ⟨byte, -, rfl⟩ := Option.map_eq_some_iff.1 h
  exact Nat.mod_lt _ (Nat.two_pow_pos _)

theorem PaletteSource.lend_eq_given {p : PaletteSource} {lent : Palette}
    (h : p.lend = .given lent) : ∃ own, p = .given own ∧ lent.colors = own.colors := by
  cases p with
  | absent => cases h
  | given own =>
    cases h
    exact ⟨own, rfl, rfl⟩
  | trailing offset => cases h

namespace Bitmap

/-- If there is a palette, the format has palettes, and every pixel value has an entry. -/
def IsCovered (b : Bitmap) : Prop :=
  ∀ colors, b.colors? = some colors → b.format.isPalettized = true
    ∧ b.format.paletteSize ≤ colors.length

variable {b b' : Bitmap}

/-! ### Where a palette can be too short -/

/-- A palette behind the pixels is as long as it has to be. -/
theorem isCovered_iff (hb : b.BacksPalette) : b.IsCovered ↔ b.CoversGiven := by
  constructor
  · intro h p hp
    exact h p.colors (by rw [colors?, hp])
  · intro h colors hcolors
    cases hpalette : b.palette with
    | absent =>
      rw [colors?, hpalette] at hcolors
      cases hcolors
    | given p =>
      rw [colors?, hpalette] at hcolors
      cases hcolors
      exact h p hpalette
    | trailing offset =>
      obtain ⟨hpalettized, hlong⟩ := hb offset hpalette
      refine ⟨hpalettized, ?_⟩
      rw [colors?, hpalette] at hcolors
      obtain ⟨entries, hentries, rfl⟩ := Option.map_eq_some_iff.1 hcolors
      rw [Bytes.slice?_eq, if_pos hlong] at hentries
      cases hentries
      rw [List.length_map, List.length_take, List.length_drop]
      omega

theorem isCovered_setPalette_iff {p : Palette} :
    (b.setPalette p).IsCovered ↔ p.Covers b.format := by
  constructor
  · exact fun h => h p.colors rfl
  · intro h colors hcolors
    cases hcolors
    exact h

theorem isCovered_of_setData_iff {pixels old : PixelSource} {format : PixelFormat}
    {rowSize : UInt16} (h : b.setData pixels format rowSize = .ok (b', old)) :
    b'.IsCovered ↔ ∀ p, b.palette = .given p → p.Covers format := by
  obtain ⟨hformat, hapart, hgiven⟩ := palette_of_setData h
  have hback : b'.BacksPalette := fun offset hoffset => absurd hoffset (hapart offset)
  rw [isCovered_iff hback, CoversGiven, hformat]
  simp only [hgiven]

theorem ChangesInPlace.coversGiven (h : ChangesInPlace b b') (hb : b.CoversGiven) :
    b'.CoversGiven := by
  cases h with
  | nothing => exact hb
  | pixels pixels hlength => exact hb
  | color hcolors index color =>
    rintro _ ⟨⟩
    obtain ⟨hpalettized, hcount⟩ := hb _ hcolors
    exact ⟨hpalettized, by rw [Palette.colors, List.length_set]; exact hcount⟩
  | bounds hwithin => exact hb

theorem IsPart.coversGiven {part : Bitmap} (h : IsPart b part) (hb : b.CoversGiven) :
    part.CoversGiven := by
  obtain ⟨pixels, bounds, rfl, -⟩ := h.eq_lend
  intro p hp
  obtain ⟨own, hown, hcolors⟩ := PaletteSource.lend_eq_given hp
  obtain ⟨hpalettized, hcount⟩ := hb own hown
  refine ⟨hpalettized, ?_⟩
  rw [hcolors]
  exact hcount

theorem IsConstructed.reachable (hb : IsConstructed b) : Reachable b := by
  cases hb with
  | made h => exact .made h
  | palettized hs h => exact .palettized hs h

theorem IsConstructed.coversGiven (hb : IsConstructed b) : b.CoversGiven := by
  cases hb with
  | made h =>
    obtain ⟨size, hcomplete⟩ := h.exists_isComplete
    exact hcomplete.covers
  | palettized hs h =>
    rw [toPalettized_eq_ok hs.wellFormed.proper h]
    rintro _ ⟨⟩
    exact ⟨rfl, Nat.le_refl 2⟩

end Bitmap

/-! ### Operations -/

/-- The operation brings in no palette that is too short, and no format for which the palette that
is there is too short, or which has none. -/
def BitmapAction.KeepsCover (a : BitmapAction) (b : Bitmap) : Prop :=
  match a with
  | .setPalette p => p.Covers b.format
  | .setData origin bytes format rowSize =>
    ∀ b' old, b.setData (origin.source bytes) format rowSize = .ok (b', old) →
      ∀ p, b.palette = .given p → p.Covers format
  | _ => True

namespace Bitmap

/-- A bitmap with a history in which no operation left a pixel value without an entry. -/
inductive WellKept : Bitmap → Prop
  | constructed {b} (h : IsConstructed b) : WellKept b
  | part {b part} (hb : WellKept b) (h : IsPart b part) : WellKept part
  | run {b} (hb : WellKept b) (a : BitmapAction) (displaced : List PixelSource)
      (ha : a.KeepsCover b) : WellKept (a.run ⟨b, displaced⟩).2.bitmap
  | setData {b b' pixels format rowSize old} (hb : WellKept b)
      (h : Bitmap.setData b pixels format rowSize = .ok (b', old))
      (hcover : ∀ p, b.palette = .given p → p.Covers format) : WellKept b'

variable {b b' : Bitmap}

theorem WellKept.reachable (hb : WellKept b) : Reachable b := by
  induction hb with
  | constructed h => exact h.reachable
  | part hb h ih => exact ih.part h
  | run hb a displaced ha ih => exact ih.run a displaced
  | setData hb h hcover ih => exact ih.setData h

theorem isCovered_run_iff (hb : Reachable b) (hcovered : b.IsCovered) (a : BitmapAction)
    (displaced : List PixelSource) :
    (a.run ⟨b, displaced⟩).2.bitmap.IsCovered ↔ a.KeepsCover b := by
  have hback := (hb.run a displaced).backsPalette
  rcases a.run_cases ⟨b, displaced⟩ with ⟨p, rfl, hrun⟩ | ⟨_, _, _, _, after, rfl, hset, hrun⟩
    | ⟨hkept, hchange⟩
  · rw [hrun]
    exact isCovered_setPalette_iff
  · rw [hrun, isCovered_of_setData_iff hset]
    constructor
    · exact fun h _ _ _ => h
    · exact fun h => h _ _ hset
  · have hafter : (a.run ⟨b, displaced⟩).2.bitmap.IsCovered :=
      (isCovered_iff hback).2 (hchange.coversGiven ((isCovered_iff hb.backsPalette).1 hcovered))
    refine iff_of_true hafter ?_
    cases a with
    | setPalette p => exact isCovered_setPalette_iff.1 hafter
    | setData origin bytes format rowSize =>
      intro b' old hset
      -- storage that is taken puts the old one aside
      have hputAside : ((BitmapAction.setData origin bytes format rowSize).run
          ⟨b, displaced⟩).2.displaced = displaced ++ [old] := by
        simp only [BitmapAction.run, HeldBitmap.setData, hset]
      rw [hputAside] at hkept
      exact absurd hkept (by simp)
    | _ => trivial

theorem WellKept.isCovered (hb : WellKept b) : b.IsCovered := by
  induction hb with
  | constructed h => exact (isCovered_iff h.reachable.backsPalette).2 h.coversGiven
  | part hb h ih =>
    have hwhole := (isCovered_iff hb.reachable.backsPalette).1 ih
    exact (isCovered_iff (hb.reachable.part h).backsPalette).2 (h.coversGiven hwhole)
  | run hb a displaced ha ih => exact (isCovered_run_iff hb.reachable ih a displaced).2 ha
  | setData hb h hcover ih => exact (isCovered_of_setData_iff h).2 hcover

/-! ### Pixels -/

theorem IsCovered.lt_length (hb : b.IsCovered) {colors : List Color}
    (hcolors : b.colors? = some colors) {row : Bytes} {x value : Nat}
    (h : b.format.valueAt? row x = some value) : value < colors.length := by
  obtain ⟨hpalettized, hcount⟩ := hb colors hcolors
  rw [PixelFormat.paletteSize, if_pos hpalettized] at hcount
  exact Nat.lt_of_lt_of_le (PixelFormat.valueAt?_lt h) hcount

theorem IsCovered.isSome_colorAt? (hb : b.IsCovered) {colors : List Color}
    (hcolors : b.colors? = some colors) (x y : Int) :
    (b.colorAt? x y).isSome = (b.valueAt? x y).isSome := by
  cases hvalue : b.valueAt? x y with
  | none =>
    rw [colorAt?, hvalue]
    rfl
  | some value =>
    have hlt : value < colors.length := by
      obtain ⟨row, -, hrow⟩ := Option.bind_eq_some_iff.1 hvalue
      split at hrow
      · exact hb.lt_length hcolors hrow
      · cases hrow
    simp only [colorAt?, hvalue, Option.bind_some, hcolors, List.getElem?_eq_getElem hlt]
    cases b.format <;> rfl

/-- As long as no operation brings in a palette or a format of which a pixel value would be without
an entry: a palette is there for palette formats only, it has an entry for each value that can be
unpacked, and so every stored pixel has a colour. Each operation that is left out breaks this. -/
theorem palette_covers (hb : WellKept b) :
    (∀ colors, b.colors? = some colors →
        (b.format.isPalettized = true ∧ b.format.paletteSize ≤ colors.length)
          ∧ (∀ row x value, b.format.valueAt? row x = some value → value < colors.length)
          ∧ ∀ x y, (b.colorAt? x y).isSome = (b.valueAt? x y).isSome)
      ∧ (∀ (a : BitmapAction) displaced,
        (a.run ⟨b, displaced⟩).2.bitmap.IsCovered ↔ a.KeepsCover b)
      ∧ ∀ pixels format rowSize b' old, b.setData pixels format rowSize = .ok (b', old) →
        (b'.IsCovered ↔ ∀ p, b.palette = .given p → p.Covers format) := by
  have hcovered := hb.isCovered
  refine ⟨fun colors hcolors => ⟨hcovered colors hcolors, ?_, ?_⟩, ?_, ?_⟩
  · exact fun row x value h => hcovered.lt_length hcolors h
  · exact hcovered.isSome_colorAt? hcolors
  · exact isCovered_run_iff hb.reachable hcovered
  · exact fun _ _ _ _ _ h => isCovered_of_setData_iff h

/-- Four grays cover the values of two bits. Three of them do not. -/
theorem palette_covers_grays :
    let held : HeldBitmap :=
      ⟨⟨.owned [0, 0], .given (.owned (List.replicate 4 .clear)), 1, .palette2, 1,
        .ofSize ⟨4, 2⟩, none⟩, []⟩
    let grayed := ((BitmapAction.setPalette (.owned grays)).run held).2.bitmap
    WellKept grayed ∧ grayed.colors? = some grays
      ∧ (∀ row x value, PixelFormat.palette2.valueAt? row x = some value → value < 4)
      ∧ ¬ ((BitmapAction.setPalette (.owned (grays.take 3))).run
        ⟨grayed, []⟩).2.bitmap.IsCovered := by
  intro held grayed
  have hblank : Bitmap.blank ⟨4, 2⟩ .palette2 .standard = .ok held.bitmap := rfl
  have hfirst : WellKept held.bitmap := .constructed (.made (.blank hblank))
  have hcover : (Palette.owned grays).Covers .palette2 := by decide
  have hgrayed : WellKept grayed := hfirst.run (.setPalette (.owned grays)) [] hcover
  obtain ⟨hcolors, hbreaks, -⟩ := palette_covers hgrayed
  obtain ⟨-, hvalues, -⟩ := hcolors grays rfl
  refine ⟨hgrayed, rfl, hvalues, fun hcovered => ?_⟩
  have hshort : ¬ (Palette.owned (grays.take 3)).Covers .palette2 := by decide
  exact hshort ((hbreaks _ []).1 hcovered)

/-- A palette for a format that has none, and four entries for sixteen values: the palette stays
when the format changes. -/
theorem palette_without_cover :
    (∃ b, Bitmap.blank ⟨2, 2⟩ .color .standard = .ok b
        ∧ (b.setPalette (.borrowed grays)).format.isPalettized = false
        ∧ (b.setPalette (.borrowed grays)).colors? = some grays)
      ∧ ∃ b wide old, Bitmap.blankWithPalette ⟨2, 1⟩ .palette2 (.owned grays) .standard = .ok b
        ∧ b.setData (.owned [0x9f]) .palette4 1 = .ok (wide, old)
        ∧ wide.colors? = some grays ∧ wide.valueAt? 0 0 = some 9 ∧ wide.colorAt? 0 0 = none :=
  ⟨⟨_, rfl, rfl, rfl⟩, _, _, _, rfl, rfl, rfl, rfl, rfl⟩

end Bitmap

end DialGraphics
