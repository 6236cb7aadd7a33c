import DialGraphics.Bitmap.OfResource
import DialGraphics.Draw.Image
import DialGraphics.Draw.Sequence
import DialGraphics.Proofs.Bitmap.RawFile
import DialGraphics.Proofs.Resource.Loading

/-!
# Things made from resources

What is made from a resource depends on its bytes, and not on where they are: a bitmap, an image or
a sequence that is used in place is like the one from a copy.
-/

namespace DialGraphics

namespace Bitmap

/-- Two bitmaps that show the same. -/
structure LooksLike (b b' : Bitmap) : Prop where
  format : b.format = b'.format
  version : b.version = b'.version
  bounds : b.bounds = b'.bounds
  rowSize : b.rowSize = b'.rowSize
  data : b.data = b'.data
  colors : b.colors? = b'.colors?
  rows : ∀ y, b.row? y = b'.row? y

theorem looksLike_withPixels (b : Bitmap) {pixels : PixelSource}
    (h : b.pixels.toBytes = pixels.toBytes) : b.LooksLike { b with pixels } := by
  have hdata : b.data = data { b with pixels } := by
    unfold data
    rw [h]
  refine ⟨rfl, rfl, rfl, rfl, hdata, ?_, fun y => ?_⟩
  · unfold colors?
    rw [h]
  · unfold row?
    rw [hdata]

theorem sameOutcome_ofLayout {pixels pixels' : PixelSource} (h : pixels.toBytes = pixels'.toBytes)
    (l : RawLayout) : SameOutcome LooksLike (ofLayout pixels l) (ofLayout pixels' l) := by
  by_cases hformat : l.format = .circular
  · simp only [ofLayout, hformat]
    cases CircularRow.table l.size with
    | error e => exact rfl
    | ok rows => exact looksLike_withPixels ⟨pixels, _, _, _, _, _, some rows⟩ h
  · rw [ofLayout_fixed hformat, ofLayout_fixed hformat]
    exact looksLike_withPixels ⟨pixels, _, _, _, _, _, none⟩ h

/-! ### Raw bitmaps -/

theorem toBytes_pixelsOfRaw (r : ResourceBytes) :
    (pixelsOfRaw r).toBytes = r.toBytes.drop RawLayout.headerSize := by
  rw [← r.toBytes_advance]
  unfold pixelsOfRaw
  split
  · rename_i copy hcopy
    rw [hcopy]
    exact copy.toBytes_align pixelAlignment
  · rfl

variable {bytes : Bytes} {platform : Platform} {r r' : ResourceBytes}

theorem ofRawResource_eq (r : ResourceBytes) (platform : Platform) :
    ofRawResource r platform = (RawLayout.parse r.toBytes platform).bind fun l =>
      if l.totalLength = r.toBytes.length then ofLayout (.resource (pixelsOfRaw r)) l
      else .error .malformed := by
  unfold ofRawResource
  cases RawLayout.parse r.toBytes platform with
  | error e => rfl
  | ok l =>
    simp only [bind, Except.bind]
    by_cases hlength : l.totalLength = r.toBytes.length
    · rw [if_pos hlength, if_neg (not_not_intro hlength)]
    · rw [if_neg hlength, if_pos hlength]
      rfl

theorem sameOutcome_ofRawResource (platform : Platform) (h : r.toBytes = r'.toBytes) :
    SameOutcome LooksLike (ofRawResource r platform) (ofRawResource r' platform) := by
  rw [ofRawResource_eq, ofRawResource_eq, h]
  cases RawLayout.parse r'.toBytes platform with
  | error e => exact rfl
  | ok l =>
    simp only [Except.bind]
    split
    · apply sameOutcome_ofLayout
      show (pixelsOfRaw r).toBytes = (pixelsOfRaw r').toBytes
      rw [toBytes_pixelsOfRaw, toBytes_pixelsOfRaw, h]
    · exact rfl

theorem ofRaw_eq (bytes : Bytes) (platform : Platform) :
    ofRaw bytes platform = (RawLayout.parse bytes platform).bind fun l =>
      if bytes.length < l.totalLength then .error .malformed
      else ofLayout (.borrowed (bytes.drop RawLayout.headerSize)) l := by
  unfold ofRaw
  cases RawLayout.parse bytes platform with
  | error e => rfl
  | ok l =>
    simp only [bind, Except.bind]
    split
    · rfl
    · rfl

/-- A raw resource that is as long as its header says is like a view of the same bytes, and one that
is longer is malformed. -/
theorem ofRawResource_of_parse {l : RawLayout} (hr : r.toBytes = bytes)
    (hl : RawLayout.parse bytes platform = .ok l) :
    (l.totalLength = bytes.length →
        SameOutcome LooksLike (ofRawResource r platform) (ofRaw bytes platform))
      ∧ (l.totalLength < bytes.length → ofRawResource r platform = .error .malformed) := by
  rw [ofRawResource_eq, ofRaw_eq, hr, hl]
  simp only [Except.bind]
  refine ⟨fun hlength => ?_, fun hshort => ?_⟩
  · rw [if_pos hlength, if_neg (by omega)]
    apply sameOutcome_ofLayout
    show (pixelsOfRaw r).toBytes = bytes.drop RawLayout.headerSize
    rw [toBytes_pixelsOfRaw, hr]
  · rw [if_neg (by omega)]

/-! ### Loading -/

theorem ofResource_eq (m : ResourceMap) (key : ResourceKey) (platform : Platform) :
    (ofResource m key platform).1 = (m.load key true).1.bind fun r =>
      if isPng r.toBytes then ofPng r.toBytes platform else ofRawResource r platform := by
  unfold ofResource
  rcases m.load key true with ⟨e | r, m'⟩
  · rfl
  · simp only [Except.bind]
    split
    · rfl
    · cases ofRawResource r platform with
      | error e => rfl
      | ok b => rfl

theorem LooksLike.refl (b : Bitmap) : b.LooksLike b :=
  looksLike_withPixels b rfl

theorem sameOutcome_of_toBytes (platform : Platform) (h : r.toBytes = r'.toBytes) :
    SameOutcome LooksLike
      (if isPng r.toBytes then ofPng r.toBytes platform else ofRawResource r platform)
      (if isPng r'.toBytes then ofPng r'.toBytes platform else ofRawResource r' platform) := by
  rw [h]
  split
  · cases ofPng r'.toBytes platform with
    | error e => exact rfl
    | ok b => exact LooksLike.refl b
  · exact sameOutcome_ofRawResource platform h

end Bitmap

/-! ### Draw command files -/

namespace Draw

theorem loadFile_eq (m : ResourceMap) (key : ResourceKey) (tag : Tag)
    (check : Bytes → Except DecodeError Unit) :
    (loadFile m key tag check).1 = (m.load key false).1.bind fun r =>
      ((filePayload r.toBytes tag).bind check).map fun _ =>
        .resource (r.advance fileHeaderSize) := by
  unfold loadFile
  rcases m.load key false with ⟨e | r, m'⟩
  · rfl
  · show _ = ((filePayload r.toBytes tag).bind check).map _
    dsimp only
    cases (filePayload r.toBytes tag).bind check with
    | error e => rfl
    | ok u => rfl

theorem Image.ofResource_eq (m : ResourceMap) (key : ResourceKey) :
    (Image.ofResource m key).1 = (loadFile m key Tag.drawImage Image.validate).1.map Image.mk := by
  unfold Image.ofResource
  rcases loadFile m key Tag.drawImage Image.validate with ⟨e | b, m'⟩ <;> rfl

theorem Sequence.ofResource_eq (m : ResourceMap) (key : ResourceKey) :
    (Sequence.ofResource m key).1
      = (loadFile m key Tag.drawSequence Sequence.validate).1.map Sequence.mk := by
  unfold Sequence.ofResource
  rcases loadFile m key Tag.drawSequence Sequence.validate with ⟨e | b, m'⟩ <;> rfl

theorem sameOutcome_file {r r' : ResourceBytes} (h : r.toBytes = r'.toBytes) (tag : Tag)
    (check : Bytes → Except DecodeError Unit) :
    SameOutcome (fun b b' : Backing => b.toBytes = b'.toBytes)
      (((filePayload r.toBytes tag).bind check).map fun _ =>
        .resource (r.advance fileHeaderSize))
      (((filePayload r'.toBytes tag).bind check).map fun _ =>
        .resource (r'.advance fileHeaderSize)) := by
  rw [h]
  cases (filePayload r'.toBytes tag).bind check with
  | error e => exact rfl
  | ok u =>
    show (r.advance fileHeaderSize).toBytes = (r'.advance fileHeaderSize).toBytes
    rw [ResourceBytes.toBytes_advance, ResourceBytes.toBytes_advance, h]

end Draw

/-! ### In place and copied -/

section

variable {α β : Type} {alike : α → α → Prop}

theorem SameOutcome.map {f : α → β} {alike' : β → β → Prop} {a a' : Except DecodeError α}
    (h : SameOutcome alike a a') (hf : ∀ x x', alike x x' → alike' (f x) (f x')) :
    SameOutcome alike' (a.map f) (a'.map f) := by
  cases a with
  | error e =>
    cases a' with
    | error e' => exact h
    | ok x' => exact h.elim
  | ok x =>
    cases a' with
    | error e' => exact h.elim
    | ok x' => exact hf x x' h

variable {bytes : Bytes} {key : ResourceKey} {m m' : ResourceMap}

/-- What is made from a loaded resource is the same in place and copied, if all that matters of the
resource is its bytes. Only a copy can be too large. -/
theorem sameOutcome_load (hbytes : bytes ≠ []) (hstore : m.store.Describes key bytes)
    (hmapped : m.mappable? key ≠ none) (hstore' : m'.store.Describes key bytes)
    (hcopied : m'.mappable? key = none) (pad : Bool) {make : ResourceBytes → Except DecodeError α}
    (hmake : ∀ r r', r.toBytes = r'.toBytes → SameOutcome alike (make r) (make r')) :
    SameOutcome alike ((m.load key pad).1.bind make) ((m'.load key pad).1.bind make)
      ∨ allocationLimit ≤ bytes.length + (if pad then alignmentPad else 0)
        ∧ (m'.load key pad).1.bind make = .error .outOfMemory := by
  rw [ResourceMap.load_inPlace hbytes hstore hmapped]
  rcases ResourceMap.load_copied hbytes hstore' hcopied pad with
    ⟨copy, hcopy, hsame⟩ | ⟨hlarge, hfailed⟩
  · left
    rw [hcopy]
    exact hmake _ _ hsame.symm
  · right
    rw [hfailed]
    exact ⟨hlarge, rfl⟩

end

/-- A resource that is used in place and one that is copied give the same: bitmaps that look alike,
images and sequences of the same bytes, or the same error, unless the copy is larger than any buffer
can be. What a raw resource gives is what a view of its bytes gives, but nothing may follow them. -/
theorem inPlace_like_copy {bytes : Bytes} {key : ResourceKey} {m m' : ResourceMap}
    (hbytes : bytes ≠ []) (hstore : m.store.Describes key bytes) (hmapped : m.mappable? key ≠ none)
    (hstore' : m'.store.Describes key bytes) (hcopied : m'.mappable? key = none)
    (platform : Platform) :
    (SameOutcome Bitmap.LooksLike (Bitmap.ofResource m key platform).1
          (Bitmap.ofResource m' key platform).1
        ∨ allocationLimit ≤ bytes.length + alignmentPad
          ∧ (Bitmap.ofResource m' key platform).1 = .error .outOfMemory)
      ∧ (isPng bytes = false → ∀ l, RawLayout.parse bytes platform = .ok l →
        (l.totalLength = bytes.length →
            SameOutcome Bitmap.LooksLike (Bitmap.ofResource m key platform).1
              (Bitmap.ofRaw bytes platform))
          ∧ (l.totalLength < bytes.length →
            (Bitmap.ofResource m key platform).1 = .error .malformed))
      ∧ (SameOutcome (fun i i' : Draw.Image => i.toBytes = i'.toBytes)
            (Draw.Image.ofResource m key).1 (Draw.Image.ofResource m' key).1
          ∨ allocationLimit ≤ bytes.length
            ∧ (Draw.Image.ofResource m' key).1 = .error .outOfMemory)
      ∧ (SameOutcome (fun s s' : Draw.Sequence => s.toBytes = s'.toBytes)
            (Draw.Sequence.ofResource m key).1 (Draw.Sequence.ofResource m' key).1
          ∨ allocationLimit ≤ bytes.length
            ∧ (Draw.Sequence.ofResource m' key).1 = .error .outOfMemory) := by
  refine ⟨?_, ?_, ?_, ?_⟩
  · rw [Bitmap.ofResource_eq, Bitmap.ofResource_eq]
    exact sameOutcome_load hbytes hstore hmapped hstore' hcopied true
      fun r r' => Bitmap.sameOutcome_of_toBytes platform
  · intro hraw l hl
    have hresult : (Bitmap.ofResource m key platform).1
        = Bitmap.ofRawResource (.mapped key bytes) platform := by
      rw [Bitmap.ofResource_eq, ResourceMap.load_inPlace hbytes hstore hmapped]
      exact if_neg (Bool.eq_false_iff.1 hraw)
    rw [hresult]
    exact Bitmap.ofRawResource_of_parse rfl hl
  · rw [Draw.Image.ofResource_eq, Draw.Image.ofResource_eq, Draw.loadFile_eq, Draw.loadFile_eq]
    rcases sameOutcome_load hbytes hstore hmapped hstore' hcopied false
      (fun r r' h => Draw.sameOutcome_file h Tag.drawImage Draw.Image.validate) with
      hsame | ⟨hlarge, hfailed⟩
    · exact Or.inl (hsame.map fun _ _ h => h)
    · rw [hfailed]
      exact Or.inr ⟨hlarge, rfl⟩
  · rw [Draw.Sequence.ofResource_eq, Draw.Sequence.ofResource_eq, Draw.loadFile_eq,
      Draw.loadFile_eq]
    rcases sameOutcome_load hbytes hstore hmapped hstore' hcopied false
      (fun r r' h => Draw.sameOutcome_file h Tag.drawSequence Draw.Sequence.validate) with
      hsame | ⟨hlarge, hfailed⟩
    · exact Or.inl (hsame.map fun _ _ h => h)
    · rw [hfailed]
      exact Or.inr ⟨hlarge, rfl⟩

/-- A raw bitmap of two rows with its palette behind them, in place and copied to an odd address. -/
theorem inPlace_like_copy_paletteFile :
    let bytes : Bytes := [1, 0, 6, 16, 0, 0, 0, 0, 4, 0, 2, 0, 27, 228, 192, 213, 234, 255]
    let store := Store.ofCatalog [⟨⟨0, 1⟩, bytes, true, bytes.length, 0⟩]
    let m : ResourceMap := { store }
    let m' : ResourceMap := { store, mapping := false, heapBase := 3 }
    (∃ b, (Bitmap.ofResource m ⟨0, 1⟩ .standard).1 = .ok b)
      ∧ SameOutcome Bitmap.LooksLike (Bitmap.ofResource m ⟨0, 1⟩ .standard).1
        (Bitmap.ofResource m' ⟨0, 1⟩ .standard).1
      ∧ SameOutcome Bitmap.LooksLike (Bitmap.ofResource m ⟨0, 1⟩ .standard).1
        (Bitmap.ofRaw bytes .standard) := by
  intro bytes store m m'
  have hstore : store.Describes ⟨0, 1⟩ bytes := Store.describes_ofCatalog ..
  have hmapped : m.mappable? ⟨0, 1⟩ ≠ none := by
    rw [show m.mappable? ⟨0, 1⟩ = some bytes from rfl]
    exact Option.some_ne_none _
  have hbytes : bytes ≠ [] := List.cons_ne_nil _ _
  have hcopied : m'.mappable? ⟨0, 1⟩ = none := rfl
  obtain ⟨hbitmaps, hraw, -, -⟩ :=
    inPlace_like_copy hbytes (m := m) hstore hmapped hstore hcopied .standard
  have hsmall : ¬ allocationLimit ≤ bytes.length + alignmentPad := by decide
  refine ⟨⟨_, rfl⟩, hbitmaps.resolve_right fun h => hsmall h.1, ?_⟩
  exact (hraw rfl _ rfl).1 rfl

end DialGraphics
