import DialGraphics.Proofs.Bitmap.Decoded
import DialGraphics.Proofs.Bitmap.Parts

/-!
# Reachable bitmaps

Whatever is done with a bitmap after it was made, it is well-formed.
-/

namespace DialGraphics.Bitmap

/-- A bitmap as a constructor returns it. -/
inductive IsMade : Bitmap → Prop
  | blank {size format platform b} (h : Bitmap.blank size format platform = .ok b) : IsMade b
  | blankWithPalette {size format palette platform b}
      (h : Bitmap.blankWithPalette size format palette platform = .ok b) : IsMade b
  | raw {bytes platform b} (h : Bitmap.ofRaw bytes platform = .ok b) : IsMade b
  | png {bytes platform b} (h : Bitmap.ofPng bytes platform = .ok b) : IsMade b
  | resource {m key platform b} (h : (Bitmap.ofResource m key platform).1 = .ok b) : IsMade b

/-- A bitmap that comes out of any sequence of operations, starting with a constructor. -/
inductive Reachable : Bitmap → Prop
  | made {b} (h : IsMade b) : Reachable b
  | palettized {source b} (hs : Reachable source) (h : source.toPalettized = .ok b) : Reachable b
  | part {b part} (hb : Reachable b) (h : IsPart b part) : Reachable part
  | run {b} (hb : Reachable b) (a : BitmapAction) (displaced : List PixelSource) :
      Reachable (a.run ⟨b, displaced⟩).2.bitmap
  | setData {b b' pixels format rowSize old} (hb : Reachable b)
      (h : Bitmap.setData b pixels format rowSize = .ok (b', old)) : Reachable b'

variable {b : Bitmap}

theorem IsMade.isSound (hb : IsMade b) : b.IsSound := by
  cases hb with
  | blank h => exact isSound_of_blank h
  | blankWithPalette h => exact isSound_of_blankWithPalette h
  | raw h => exact isSound_of_ofRaw h
  | png h => exact isSound_of_ofPng h
  | resource h => exact isSound_of_ofResource h

theorem Reachable.wellFormed (hb : Reachable b) : b.WellFormed := by
  induction hb with
  | made h => exact h.isSound.toWellFormed
  | palettized hs h ih => exact (isSound_of_toPalettized ih.proper h).toWellFormed
  | part hb h ih => exact h.wellFormed ih
  | run hb a displaced ih => exact (a.step_run ⟨_, displaced⟩).wellFormed ih
  | setData hb h ih => exact ih.setData h

theorem Reachable.runAll (hb : Reachable b) (actions : List BitmapAction)
    (displaced : List PixelSource) :
    Reachable (BitmapAction.runAll actions ⟨b, displaced⟩).2.bitmap := by
  induction actions generalizing b displaced with
  | nil => exact hb
  | cons a actions ih => exact ih (hb.run a displaced) (a.run ⟨b, displaced⟩).2.displaced

end DialGraphics.Bitmap
