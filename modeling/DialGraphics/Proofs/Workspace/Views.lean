import DialGraphics.Proofs.Bitmap.Operations
import DialGraphics.Proofs.Bitmap.RawFile
import DialGraphics.Proofs.Resource.Counts
import DialGraphics.Workspace.Basic

/-!
# Which things are views

A thing is a view if it is one itself or has one inside. Only loading makes a view: bitmaps that are
made of other bytes are none, and no change of a bitmap, an image or a sequence makes it one.
-/

namespace DialGraphics

/-! ### Bitmaps that are no views -/

namespace Bitmap

def IsNoView (b : Bitmap) : Prop := b.pixels.mappedKey? = none

variable {b source : Bitmap} {platform : Platform}

theorem isNoView_of_allocateBlank {size : Size} {format : PixelFormat}
    (h : allocateBlank size format = .ok b) : b.IsNoView := by
  unfold allocateBlank at h
  split at h
  · obtain ⟨rows, -, h⟩ := bind_eq_ok_iff.1 h
    obtain ⟨bytes, -, h⟩ := bind_eq_ok_iff.1 h
    cases h
    rfl
  · obtain ⟨bytes, -, h⟩ := bind_eq_ok_iff.1 h
    cases h
    rfl

theorem isNoView_of_blank {size : Size} {format : PixelFormat}
    (h : blank size format platform = .ok b) : b.IsNoView := by
  unfold blank at h
  split at h
  · obtain ⟨zeros, hzeros, rfl⟩ := map_eq_ok_iff.1 h
    have hnone := isNoView_of_allocateBlank hzeros
    split
    · exact hnone
    · exact hnone
  · cases h

theorem isNoView_of_blankWithPalette {size : Size} {format : PixelFormat} {palette : Palette}
    (h : blankWithPalette size format palette platform = .ok b) : b.IsNoView := by
  unfold blankWithPalette at h
  split at h
  · obtain ⟨zeros, hzeros, rfl⟩ := map_eq_ok_iff.1 h
    have hnone : zeros.IsNoView := isNoView_of_allocateBlank hzeros
    exact hnone
  · cases h

theorem isNoView_of_toPalettized (h : source.toPalettized = .ok b) : b.IsNoView := by
  unfold toPalettized at h
  split at h
  · simp only at h
    split at h
    · cases h
    · obtain ⟨zeros, -, rfl⟩ := map_eq_ok_iff.1 h
      rfl
  · cases h

theorem isNoView_of_subBitmap? {rect : Rect} (h : source.subBitmap? rect = some b) :
    b.IsNoView := by
  obtain ⟨bounds, -, rfl⟩ := Option.map_eq_some_iff.1 h
  rfl

theorem isNoView_of_ofFrame {h : Png.Header} {palette : List Rgba} {key : Option Png.TransparentKey}
    {frame : Png.Frame} {size : Size} (hb : ofFrame h palette key frame size platform = .ok b) :
    b.IsNoView := by
  unfold ofFrame at hb
  split at hb
  all_goals
    obtain ⟨zeros, -, rfl⟩ := map_eq_ok_iff.1 hb
    rfl

theorem isNoView_of_ofPng {bytes : Bytes} (h : ofPng bytes platform = .ok b) : b.IsNoView := by
  simp only [ofPng] at h
  split at h
  · cases h
  · split at h
    · cases h
    · split at h
      · cases h
      · exact isNoView_of_ofFrame h

theorem pixels_of_ofLayout {pixels : PixelSource} {l : RawLayout}
    (h : ofLayout pixels l = .ok b) : b.pixels = pixels := by
  by_cases hformat : l.format = .circular
  · obtain ⟨rows, -, rfl⟩ := ofLayout_circular hformat h
    rfl
  · cases (ofLayout_fixed hformat).symm.trans h
    rfl

theorem isNoView_of_ofRaw {bytes : Bytes} (h : ofRaw bytes platform = .ok b) : b.IsNoView := by
  obtain ⟨l, -, h⟩ := bind_eq_ok_iff.1 h
  simp only at h
  split at h
  · cases h
  · rw [IsNoView, pixels_of_ofLayout h]
    rfl

/-! ### Loading -/

theorem mappedKey?_pixelsOfRaw (r : ResourceBytes) : (pixelsOfRaw r).mappedKey? = r.mappedKey? := by
  cases r <;> rfl

theorem mappedKey?_of_ofRawResource {r : ResourceBytes} (h : ofRawResource r platform = .ok b) :
    b.pixels.mappedKey? = r.mappedKey? := by
  obtain ⟨l, -, h⟩ := bind_eq_ok_iff.1 h
  simp only at h
  split at h
  · cases h
  · rw [pixels_of_ofLayout h]
    exact mappedKey?_pixelsOfRaw r

open MappingTable ResourceMap

variable {m : ResourceMap} {views : List (Option ResourceKey)}

theorem countsMade_ofResource (h : Counts m.table views) (key : ResourceKey)
    (platform : Platform) :
    CountsMade views (·.pixels.mappedKey?) (ofResource m key platform) := by
  have hload := countsMade_load h key true
  unfold ofResource
  split
  · rename_i e m' hfailed
    rw [hfailed] at hload
    exact hload
  · rename_i r m' hloaded
    rw [hloaded] at hload
    have hreleased := counts_release hload
    split
    · cases hpng : ofPng r.toBytes platform with
      | error e => exact hreleased
      | ok b =>
        -- a decoded bitmap has pixels of its own, so the resource is not needed any more
        have hnone : b.pixels.mappedKey? = none := isNoView_of_ofPng hpng
        show Counts _ (b.pixels.mappedKey? :: views)
        rw [hnone]
        exact hreleased.cons_none
    · split
      · exact hreleased
      · rename_i b hraw
        show Counts _ (b.pixels.mappedKey? :: views)
        rw [mappedKey?_of_ofRawResource hraw]
        exact hload

end Bitmap

namespace Draw

open MappingTable ResourceMap

variable {m : ResourceMap} {views : List (Option ResourceKey)}

theorem countsMade_loadFile (h : Counts m.table views) (key : ResourceKey) (tag : Tag)
    (check : Bytes → Except DecodeError Unit) :
    CountsMade views Backing.mappedKey? (loadFile m key tag check) := by
  have hload := countsMade_load h key false
  unfold loadFile
  split
  · rename_i e m' hfailed
    rw [hfailed] at hload
    exact hload
  · rename_i r m' hloaded
    rw [hloaded] at hload
    split
    · exact counts_release hload
    · show Counts _ ((r.advance fileHeaderSize).mappedKey? :: views)
      rw [ResourceBytes.mappedKey?_advance]
      exact hload

theorem Image.countsMade_ofResource (h : Counts m.table views) (key : ResourceKey) :
    CountsMade views (·.backing.mappedKey?) (Image.ofResource m key) := by
  have hload := countsMade_loadFile h key Tag.drawImage Image.validate
  unfold Image.ofResource
  split
  · rename_i e m' hfailed
    rw [hfailed] at hload
    exact hload
  · rename_i backing m' hloaded
    rw [hloaded] at hload
    exact hload

theorem Sequence.countsMade_ofResource (h : Counts m.table views) (key : ResourceKey) :
    CountsMade views (·.backing.mappedKey?) (Sequence.ofResource m key) := by
  have hload := countsMade_loadFile h key Tag.drawSequence Sequence.validate
  unfold Sequence.ofResource
  split
  · rename_i e m' hfailed
    rw [hfailed] at hload
    exact hload
  · rename_i backing m' hloaded
    rw [hloaded] at hload
    exact hload

/-! ### Changes in place -/

theorem Backing.mappedKey?_replace (b : Backing) (bytes : Bytes) :
    (b.replace bytes).mappedKey? = b.mappedKey? := by
  cases b with
  | resource r => exact r.mappedKey?_replace bytes
  | owned old => rfl

theorem Backing.mappedKey?_of_modify {b b' : Backing} {change : Bytes → Option Bytes}
    (h : b.modify change = .ok b') : b'.mappedKey? = b.mappedKey? := by
  unfold modify at h
  split at h
  · cases h
  · split at h
    · cases h
    · cases h
      exact b.mappedKey?_replace _

theorem Image.mappedKey?_run (a : ImageAction) (i : Image) :
    (a.run i).2.backing.mappedKey? = i.backing.mappedKey? := by
  cases a with
  | describe => rfl
  | get index => rfl
  | visit stop => rfl
  | draw request => rfl
  | setCanvas canvas =>
    simp only [ImageAction.run]
    cases hset : i.setCanvas canvas with
    | error e => rfl
    | ok i' =>
      obtain ⟨b, hb, rfl⟩ := map_eq_ok_iff.1 hset
      exact Backing.mappedKey?_of_modify hb
  | edit edits =>
    simp only [ImageAction.run, Image.edit?]
    cases i.backing.isMapped with
    | true => rfl
    | false => exact i.backing.mappedKey?_replace _

theorem Image.mappedKey?_runAll (actions : List ImageAction) (i : Image) :
    (ImageAction.runAll actions i).2.backing.mappedKey? = i.backing.mappedKey? := by
  induction actions generalizing i with
  | nil => rfl
  | cons a actions ih => exact (ih (a.run i).2).trans (mappedKey?_run a i)

theorem Sequence.mappedKey?_run (a : SequenceAction) (s : Sequence) :
    (a.run s).2.backing.mappedKey? = s.backing.mappedKey? := by
  cases a with
  | describe => rfl
  | frame index => rfl
  | elapsed times => rfl
  | visit stop => rfl
  | drawAt offset time => rfl
  | drawFrame index request => rfl
  | setCanvas canvas =>
    simp only [SequenceAction.run]
    cases hset : s.setCanvas canvas with
    | error e => rfl
    | ok s' =>
      obtain ⟨b, hb, rfl⟩ := map_eq_ok_iff.1 hset
      exact Backing.mappedKey?_of_modify hb
  | setPlayCount count =>
    simp only [SequenceAction.run]
    cases hset : s.setPlayCount count with
    | error e => rfl
    | ok s' =>
      obtain ⟨b, hb, rfl⟩ := map_eq_ok_iff.1 hset
      exact Backing.mappedKey?_of_modify hb
  | edit index change =>
    simp only [SequenceAction.run]
    cases hedit : s.editFrame? index change with
    | none => rfl
    | some edited =>
      obtain ⟨results, s'⟩ := edited
      unfold Sequence.editFrame? at hedit
      split at hedit
      · cases hedit
      · obtain ⟨place, -, hs'⟩ := Option.map_eq_some_iff.1 hedit
        cases hs'
        exact s.backing.mappedKey?_replace _

theorem Sequence.mappedKey?_runAll (actions : List SequenceAction) (s : Sequence) :
    (SequenceAction.runAll actions s).2.backing.mappedKey? = s.backing.mappedKey? := by
  induction actions generalizing s with
  | nil => rfl
  | cons a actions ih => exact (ih (a.run s).2).trans (mappedKey?_run a s)

end Draw

/-! ### Changes of bitmaps -/

theorem PixelSource.mappedKey?_replace (p : PixelSource) (bytes : Bytes) :
    (p.replace bytes).mappedKey? = p.mappedKey? := by
  cases p with
  | resource r => exact r.mappedKey?_replace bytes
  | owned old => rfl
  | borrowed old => rfl
  | loaned old => rfl

theorem PixelOrigin.mappedKey?_source (o : PixelOrigin) (bytes : Bytes) :
    (o.source bytes).mappedKey? = none := by
  cases o <;> rfl

def BitmapAnswer.isFailure : BitmapAnswer → Bool
  | .outcome (.error _) | .written false | .replaced (.error _) .. | .made (.error _) | .part none
  | .undefinedPart => true
  | _ => false

namespace HeldBitmap

/-- The views in the storage that is used and in the storage that was given up. -/
def views (h : HeldBitmap) : List (Option ResourceKey) :=
  h.bitmap.pixels.mappedKey? :: h.displaced.map PixelSource.mappedKey?

/-- The same storage is in use, and none was given up. -/
def SameStorage (h h' : HeldBitmap) : Prop :=
  h'.bitmap.pixels.mappedKey? = h.bitmap.pixels.mappedKey? ∧ h'.displaced = h.displaced

variable {h h' : HeldBitmap}

theorem sameStorage_attempt {o : Option Bitmap}
    (ho : ∀ b ∈ o, b.pixels.mappedKey? = h.bitmap.pixels.mappedKey?) :
    h.SameStorage (h.attempt o).2 := by
  cases o with
  | none => exact ⟨rfl, rfl⟩
  | some b => exact ⟨ho b rfl, rfl⟩

theorem sameStorage_setBounds (h : HeldBitmap) (r : Rect) : h.SameStorage (h.setBounds r).2 := by
  rcases h.setBounds_cases r with ⟨hok, -⟩ | herror
  · rw [hok]
    exact ⟨rfl, rfl⟩
  · rw [herror]
    exact ⟨rfl, rfl⟩

theorem storage_setData (h : HeldBitmap) {pixels : PixelSource} (hpixels : pixels.mappedKey? = none)
    (format : PixelFormat) (rowSize : UInt16) :
    h.SameStorage (h.setData pixels format rowSize).2
      ∨ (h.setData pixels format rowSize).1 = .ok ()
        ∧ (h.setData pixels format rowSize).2.bitmap.pixels.mappedKey? = none
        ∧ (h.setData pixels format rowSize).2.displaced = h.displaced ++ [h.bitmap.pixels] := by
  rcases h.bitmap.setData_cases pixels format rowSize with ⟨b, hset, hb, -⟩ | herror
  · right
    rw [setData, hset]
    exact ⟨rfl, hb ▸ hpixels, rfl⟩
  · left
    rw [setData, herror]
    exact ⟨rfl, rfl⟩

theorem sameStorage_lendPart (h : HeldBitmap) (rect : Rect)
    (actions : HeldBitmap → List BitmapAnswer × HeldBitmap) :
    h.SameStorage (h.lendPart rect actions).2 := by
  unfold lendPart
  split
  · exact ⟨rfl, rfl⟩
  · exact ⟨rfl, rfl⟩

theorem sameStorage_lendWritablePart (h : HeldBitmap) (rect : Rect)
    (actions : HeldBitmap → List BitmapAnswer × HeldBitmap) :
    h.SameStorage (h.lendWritablePart rect actions).2 := by
  unfold lendWritablePart
  split
  · exact ⟨rfl, rfl⟩
  · split
    · exact ⟨rfl, rfl⟩
    · exact ⟨h.bitmap.pixels.mappedKey?_replace _, rfl⟩

end HeldBitmap

namespace BitmapAction

open HeldBitmap

/-- An operation keeps the storage, or puts it aside for one that is no view; that is no failure. -/
theorem storage_run (a : BitmapAction) (h : HeldBitmap) :
    h.SameStorage (a.run h).2
      ∨ (a.run h).1.isFailure = false ∧ (a.run h).2.bitmap.pixels.mappedKey? = none
        ∧ (a.run h).2.displaced = h.displaced ++ [h.bitmap.pixels] := by
  cases a with
  | describe => exact Or.inl ⟨rfl, rfl⟩
  | row y => exact Or.inl ⟨rfl, rfl⟩
  | palettize => exact Or.inl ⟨rfl, rfl⟩
  | setPalette palette => exact Or.inl ⟨rfl, rfl⟩
  | setBounds r => exact Or.inl (h.sameStorage_setBounds r)
  | write pos value =>
    left
    apply sameStorage_attempt
    intro b hb
    unfold Bitmap.write? at hb
    split at hb
    · cases hb
    · split at hb
      · cases hb
        exact h.bitmap.pixels.mappedKey?_replace _
      · cases hb
  | writeColor index color =>
    left
    apply sameStorage_attempt
    intro b hb
    unfold Bitmap.writeColor? at hb
    split at hb
    · cases hb
    · split at hb
      · split at hb
        · cases hb
          exact h.bitmap.pixels.mappedKey?_replace _
        · cases hb
          rfl
      · cases hb
  | setData origin bytes format rowSize =>
    rcases h.storage_setData (origin.mappedKey?_source bytes) format rowSize with
      hsame | ⟨hok, hkey, hdisplaced⟩
    · exact Or.inl hsame
    · refine Or.inr ⟨?_, hkey, hdisplaced⟩
      show (BitmapAnswer.replaced (h.setData _ format rowSize).1 _ _).isFailure = false
      rw [hok]
      rfl
  | sub rect actions => exact Or.inl (h.sameStorage_lendPart rect (runAll actions))
  | subWritable rect actions => exact Or.inl (h.sameStorage_lendWritablePart rect (runAll actions))

theorem count_views_run (a : BitmapAction) (h : HeldBitmap) (key : ResourceKey) :
    (a.run h).2.views.count (some key) = h.views.count (some key) := by
  rcases a.storage_run h with ⟨hkey, hdisplaced⟩ | ⟨-, hkey, hdisplaced⟩
  · rw [views, hkey, hdisplaced, views]
  · rw [views, hkey, hdisplaced, views, List.map_append, List.count_cons_of_ne (by simp),
      List.count_append, List.count_cons, List.map_singleton, List.count_singleton]

theorem count_views_runAll (actions : List BitmapAction) (h : HeldBitmap) (key : ResourceKey) :
    (runAll actions h).2.views.count (some key) = h.views.count (some key) := by
  induction actions generalizing h with
  | nil => rfl
  | cons a actions ih => exact (ih (a.run h).2).trans (count_views_run a h key)

theorem sameStorage_runAll {actions : List BitmapAction} {h : HeldBitmap}
    (hfails : (runAll actions h).1.all BitmapAnswer.isFailure = true) :
    h.SameStorage (runAll actions h).2 := by
  induction actions generalizing h with
  | nil => exact ⟨rfl, rfl⟩
  | cons a actions ih =>
    obtain ⟨hfirst, hrest⟩ : (a.run h).1.isFailure = true
        ∧ (runAll actions (a.run h).2).1.all BitmapAnswer.isFailure = true :=
      Bool.and_eq_true_iff.1 hfails
    obtain ⟨hkey, hdisplaced⟩ := ih hrest
    rcases a.storage_run h with hsame | ⟨hdone, -⟩
    · exact ⟨hkey.trans hsame.1, hdisplaced.trans hsame.2⟩
    · rw [hfirst] at hdone
      cases hdone

end BitmapAction

end DialGraphics
