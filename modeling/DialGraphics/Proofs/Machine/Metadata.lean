import DialGraphics.Machine.Metadata
import DialGraphics.Proofs.Bytes.Groups
import DialGraphics.Proofs.Png.ControlChunks
import DialGraphics.Proofs.Png.HeaderCheck

/-!
# Metadata fit the machine

Whatever the chunks in front of the image data hold, reading them never stops the machine: every
position that is read is inside a chunk whose length has been checked, and a region that does not
fit a double word does not fit a canvas either.
-/

namespace DialGraphics

theorem Bytes.of_bigWord16? {bytes rest : Bytes} {v : Nat}
    (h : bigWord16? bytes = some (v, rest)) : bytes.length = 2 + rest.length ∧ v < 65536 := by
  unfold bigWord16? at h
  split at h
  · rename_i hi lo tail
    have hhi := hi.toNat_lt
    have hlo := lo.toNat_lt
    cases h
    simp only [List.length_cons]
    omega
  · cases h

theorem Png.FrameControl.of_read? {data : Bytes} {f : FrameControl} (h : read? data = some f) :
    data.length = 26 ∧ f.delayNum < 65536 := by
  simp only [read?, Option.bind_eq_bind, Option.bind_eq_some_iff, Prod.exists] at h
  obtain ⟨_, r1, h1, _, r2, h2, _, r3, h3, _, r4, h4, _, r5, h5, _, r6, h6, _, r7, h7, h8⟩ := h
  have e1 := Bytes.length_of_bigWord32? h1
  have e2 := Bytes.length_of_bigWord32? h2
  have e3 := Bytes.length_of_bigWord32? h3
  have e4 := Bytes.length_of_bigWord32? h4
  have e5 := Bytes.length_of_bigWord32? h5
  obtain ⟨e6, hdelay⟩ := Bytes.of_bigWord16? h6
  obtain ⟨e7, -⟩ := Bytes.of_bigWord16? h7
  split at h8
  · simp only [Option.bind_eq_some_iff, Option.pure_def, Option.some.injEq] at h8
    obtain ⟨_, _, _, _, rfl⟩ := h8
    simp only [List.length_cons, List.length_nil] at e7
    exact ⟨by omega, hdelay⟩
  · cases h8

namespace Machine

open Png

/-! ### Chunks -/

theorem run_pullChunk (bytes : Bytes) :
    (pullChunk bytes).run = .ok (orFail .malformed (Chunk.pull? bytes)) := by
  rw [pullChunk_eq]
  rfl

theorem split_eq (bytes : Bytes) : split bytes = .ok (Chunk.split bytes) := by
  have hrun := run_pullChunk bytes
  rw [split, Chunk.split]
  cases hpull : Chunk.pull? bytes with
  | none =>
    rw [hpull] at hrun
    split
    · rename_i h
      cases h.symm.trans hrun
    · split
      · rfl
      · rename_i h
        cases h
    · rename_i h
      cases h.symm.trans hrun
  | some p =>
    obtain ⟨c, rest⟩ := p
    rw [hpull] at hrun
    split
    · rename_i h
      cases h.symm.trans hrun
    · rename_i h
      cases h.symm.trans hrun
    · rename_i h
      cases h.symm.trans hrun
      rw [split_eq rest, ok_bind]
termination_by bytes.length
decreasing_by
  have := Chunk.length_of_pull? hpull
  omega

theorem ofBytes_eq (bytes : Bytes) : ofBytes bytes = .ok (Decoder.ofBytes bytes) := by
  unfold ofBytes Decoder.ofBytes
  split
  · rename_i hsigned
    have hfront : bytes.take 8 = pngSignature := by
      simpa [isPng] using hsigned
    have hlength : 8 ≤ bytes.length := by
      have := congrArg List.length hfront
      rw [List.length_take, pngSignature] at this
      simp only [List.length_cons, List.length_nil] at this
      omega
    rw [sliceFrom_eq hlength, ok_bind, split_eq, ok_bind]
  · rfl

/-! ### Palette and transparency -/

theorem mapM_paletteEntry {groups : List Bytes} (h : ∀ group ∈ groups, group.length = 3) :
    groups.mapM paletteEntry
      = .ok (groups.filterMap fun
        | [r, g, b] => some ⟨r, g, b, 255⟩
        | _ => none) := by
  induction groups with
  | nil => rfl
  | cons group groups ih =>
    have hlength := h group (List.mem_cons_self ..)
    match group, hlength with
    | [r, g, b], _ =>
      have hentry : paletteEntry [r, g, b] = .ok ⟨r, g, b, 255⟩ := rfl
      have hothers := ih fun other hmem => h other (List.mem_cons_of_mem _ hmem)
      rw [List.mapM_cons, hentry, ok_bind, hothers]
      rfl

theorem paletteEntries_eq (data : Bytes) :
    paletteEntries data = .ok (Metadata.paletteEntries data) := by
  unfold paletteEntries wholeChunks
  rw [if_neg (by decide), ok_bind]
  exact mapM_paletteEntry fun _ => Bytes.length_of_mem_wholeGroups

theorem withPalette_eq (m : Metadata) (h : Header) (data : Bytes) :
    withPalette m h data = settled (m.withPalette h data) := by
  unfold withPalette Metadata.withPalette
  simp only
  split
  · rfl
  · split
    · rw [paletteEntries_eq, lift_ok, settled_ok_bind]
      rfl
    · rfl

theorem withTransparency_eq (m : Metadata) (h : Header) (data : Bytes) :
    withTransparency m h data = settled (m.withTransparency h data) := by
  unfold withTransparency Metadata.withTransparency
  cases h.color with
  | indexed =>
    simp only
    split
    · rfl
    · rfl
  | gray =>
    match data with
    | [] => rfl
    | [_] => rfl
    | [_, _] => rfl
    | _ :: _ :: _ :: _ => rfl
  | rgb =>
    match data with
    | [] | [_] | [_, _] | [_, _, _] | [_, _, _, _] | [_, _, _, _, _] => rfl
    | [_, _, _, _, _, _] => rfl
    | _ :: _ :: _ :: _ :: _ :: _ :: _ :: _ => rfl
  | grayAlpha => rfl
  | rgba => rfl

/-! ### Animation control -/

theorem animationControl_eq (c : Chunk) :
    animationControl c = settled (AnimationControl.ofChunk c) := by
  unfold animationControl AnimationControl.ofChunk
  split
  · rfl
  · rw [pullWord_eq]
    cases Bytes.bigWord32? c.data with
    | none => rfl
    | some p =>
      obtain ⟨frames, rest⟩ := p
      simp only [orFail_some, settled_ok_bind]
      rw [pullWord_eq]
      cases Bytes.bigWord32? rest with
      | none => rfl
      | some p =>
        simp only [orFail_some, settled_ok_bind]
        split
        · rfl
        · rfl

theorem sum?_any_le {a b limit : Nat} (hlimit : limit < 2 ^ 32) :
    (sum? 32 a b).any (· ≤ limit) = decide (a + b ≤ limit) := by
  unfold sum?
  split
  · rfl
  · rename_i hlarge
    have hle : ¬ a + b ≤ limit := by omega
    rw [decide_eq_false hle]
    rfl

theorem fits_eq (f : FrameControl) {canvasWidth canvasHeight : Nat}
    (hwidth : canvasWidth < 2 ^ 32) (hheight : canvasHeight < 2 ^ 32) :
    fits f canvasWidth canvasHeight = f.fits canvasWidth canvasHeight := by
  rw [fits, FrameControl.fits, sum?_any_le hwidth, sum?_any_le hheight]

theorem frameControl_eq (c : Chunk) {canvasWidth canvasHeight : Nat}
    (hwidth : canvasWidth < 2 ^ 32) (hheight : canvasHeight < 2 ^ 32) :
    frameControl c canvasWidth canvasHeight
      = settled (FrameControl.ofChunk c canvasWidth canvasHeight) := by
  unfold frameControl FrameControl.ofChunk
  by_cases htag : c.tag = Tag.fctl
  · by_cases hlength : c.data.length = 26
    · have hwhole : Bytes.splitAt? 26 c.data = some (c.data, []) :=
        Bytes.splitAt?_eq_some_iff.2 ⟨hlength, (List.append_nil _).symm⟩
      rw [if_neg (by simp [htag, hlength]), if_neg (by simp [htag]), cut_eq, hwhole]
      simp only [orFail_some, settled_ok_bind]
      cases FrameControl.read? c.data with
      | none => rfl
      | some f =>
        simp only [orFail_some, settled_ok_bind]
        rw [fits_eq f hwidth hheight]
        split
        · rfl
        · rfl
    · have hnone : FrameControl.read? c.data = none := by
        cases hread : FrameControl.read? c.data with
        | none => rfl
        | some f => exact absurd (FrameControl.of_read? hread).1 hlength
      rw [if_pos (Or.inr hlength), if_neg (by simp [htag]), hnone]
      rfl
  · rw [if_pos (Or.inl htag), if_pos htag]
    rfl

/-! ### In front of the image data -/

theorem width_lt {h : Header} (ha : h.IsAccepted) : h.width < 2 ^ 32 := by
  have := ha.width_le
  unfold Header.maxSide at this
  omega

theorem height_lt {h : Header} (ha : h.IsAccepted) : h.height < 2 ^ 32 := by
  have := ha.height_le
  unfold Header.maxSide at this
  omega

theorem absorb_eq {h : Header} (ha : h.IsAccepted) (m : Metadata) (c : Chunk) :
    absorb h m c = settled (Metadata.absorb h m c) := by
  unfold absorb Metadata.absorb
  split
  · exact withPalette_eq m h c.data
  · split
    · exact withTransparency_eq m h c.data
    · split
      · rw [animationControl_eq, settled_map]
        rfl
      · split
        · rw [frameControl_eq c (width_lt ha) (height_lt ha)]
          cases FrameControl.ofChunk c h.width h.height with
          | error e => rfl
          | ok f =>
            simp only [settled_ok_bind]
            split
            · rfl
            · rfl
        · split
          · rfl
          · split
            · rfl
            · rfl

theorem scan_eq {h : Header} (ha : h.IsAccepted) (m : Metadata) (chunks : List Chunk) :
    scan h m chunks = .ok (Metadata.scan h m chunks) := by
  induction chunks generalizing m with
  | nil => rfl
  | cons c rest ih =>
    unfold scan Metadata.scan
    split
    · rfl
    · rw [absorb_eq ha]
      show ((Except.ok (Metadata.absorb h m c) : Checked _) >>= _) = _
      rw [ok_bind]
      cases Metadata.absorb h m c with
      | error e => rfl
      | ok m => exact ih m

end Machine

end DialGraphics
