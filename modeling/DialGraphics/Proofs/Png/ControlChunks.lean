import DialGraphics.Proofs.Png.ChunkStream
import DialGraphics.Png.Animation

/-!
# Control chunks

Animation control and frame control come back from their chunks as they were written.
-/

namespace DialGraphics

namespace Bytes

theorem bigWord16?_ofBigWord16_append (v : Nat) (h : v < 65536) (rest : Bytes) :
    bigWord16? (ofBigWord16 v ++ rest) = some (v, rest) := by
  simp only [ofBigWord16, bigWord16?, List.cons_append, List.nil_append, Option.some.injEq,
    Prod.mk.injEq, and_true, UInt8.toNat_ofNat']
  omega

end Bytes

namespace Png

/-! ### Animation control -/

namespace AnimationControl

structure IsWritable (a : AnimationControl) : Prop where
  frames_pos : 0 < a.frames
  frames_lt : a.frames < wordLimit
  plays_lt : a.plays < wordLimit

@[simp] theorem length_toData (a : AnimationControl) : a.toData.length = 8 := rfl

theorem ofChunk_toData {a : AnimationControl} (ha : a.IsWritable) (crc : Nat) :
    ofChunk ⟨Tag.actl, a.toData, crc⟩ = .ok a := by
  have hplays := Bytes.bigWord32?_ofBigWord32_append a.plays ha.plays_lt []
  rw [List.append_nil] at hplays
  have hgood : ¬ (Tag.actl ≠ Tag.actl ∨ a.toData.length ≠ 8) := by
    rw [length_toData]
    decide
  simp only [ofChunk]
  rw [if_neg hgood, toData, Bytes.bigWord32?_ofBigWord32_append _ ha.frames_lt]
  simp only [hplays]
  rw [if_neg (Nat.ne_of_gt ha.frames_pos)]

end AnimationControl

/-! ### Frame control -/

theorem Dispose.ofNumber?_number (d : Dispose) : Dispose.ofNumber? d.number = some d := by
  cases d <;> rfl

theorem Blend.ofNumber?_number (b : Blend) : Blend.ofNumber? b.number = some b := by
  cases b <;> rfl

namespace FrameControl

/-- The sequence number and the delay are within their words. The region is, if it is inside a
canvas. -/
structure IsWritable (f : FrameControl) : Prop where
  sequence_lt : f.sequence < wordLimit
  delayNum_lt : f.delayNum < 65536
  delayDen_lt : f.delayDen < 65536

theorem fits_iff {f : FrameControl} {canvasWidth canvasHeight : Nat} :
    f.fits canvasWidth canvasHeight = true
      ↔ 0 < f.width ∧ 0 < f.height ∧ f.x + f.width ≤ canvasWidth
        ∧ f.y + f.height ≤ canvasHeight := by
  simp only [fits, Bool.and_eq_true, decide_eq_true_eq]
  omega

theorem fits_of_ofChunk {c : Chunk} {canvasWidth canvasHeight : Nat} {f : FrameControl}
    (hc : ofChunk c canvasWidth canvasHeight = .ok f) :
    f.fits canvasWidth canvasHeight = true := by
  simp only [ofChunk] at hc
  split at hc
  · cases hc
  · split at hc
    · cases hc
    · split at hc
      · rename_i hfits
        cases hc
        exact hfits
      · cases hc

theorem fits_of_covers {f : FrameControl} {canvasWidth canvasHeight : Nat}
    (hwidth : 0 < canvasWidth) (hheight : 0 < canvasHeight)
    (hcovers : f.covers canvasWidth canvasHeight = true) :
    f.fits canvasWidth canvasHeight = true := by
  simp only [covers, Bool.and_eq_true, beq_iff_eq] at hcovers
  rw [fits_iff]
  omega

theorem read?_toData {f : FrameControl} (hf : f.IsWritable) (hwidth : f.width < wordLimit)
    (hheight : f.height < wordLimit) (hx : f.x < wordLimit) (hy : f.y < wordLimit) :
    read? f.toData = some f := by
  have hdispose : (UInt8.ofNat f.dispose.number).toNat = f.dispose.number := by
    cases f.dispose <;> rfl
  have hblend : (UInt8.ofNat f.blend.number).toNat = f.blend.number := by
    cases f.blend <;> rfl
  simp only [toData, List.append_assoc, read?, Option.bind_eq_bind]
  rw [Bytes.bigWord32?_ofBigWord32_append _ hf.sequence_lt]
  simp only [Option.bind_some]
  rw [Bytes.bigWord32?_ofBigWord32_append _ hwidth]
  simp only [Option.bind_some]
  rw [Bytes.bigWord32?_ofBigWord32_append _ hheight]
  simp only [Option.bind_some]
  rw [Bytes.bigWord32?_ofBigWord32_append _ hx]
  simp only [Option.bind_some]
  rw [Bytes.bigWord32?_ofBigWord32_append _ hy]
  simp only [Option.bind_some]
  rw [Bytes.bigWord16?_ofBigWord16_append _ hf.delayNum_lt]
  simp only [Option.bind_some]
  rw [Bytes.bigWord16?_ofBigWord16_append _ hf.delayDen_lt]
  simp only [Option.bind_some, hdispose, hblend, Dispose.ofNumber?_number, Blend.ofNumber?_number]
  rfl

theorem ofChunk_toData {f : FrameControl} (hf : f.IsWritable) {canvasWidth canvasHeight : Nat}
    (hwidth : canvasWidth < wordLimit) (hheight : canvasHeight < wordLimit)
    (hfits : f.fits canvasWidth canvasHeight = true) (crc : Nat) :
    ofChunk ⟨Tag.fctl, f.toData, crc⟩ canvasWidth canvasHeight = .ok f := by
  obtain ⟨hw, hh, hright, hbottom⟩ := fits_iff.1 hfits
  have hread : read? f.toData = some f :=
    read?_toData hf (by omega) (by omega) (by omega) (by omega)
  simp only [ofChunk, hread, hfits]
  rfl

@[simp] theorem length_toData (f : FrameControl) : f.toData.length = 26 := rfl

end FrameControl

end Png

end DialGraphics
