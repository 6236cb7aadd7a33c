import DialGraphics.Proofs.Draw.ContainerEdits
import Mathlib.Algebra.Order.BigOperators.Group.List
import Mathlib.Algebra.Order.Group.Nat

/-!
# Frames in turn

The frames of a pass take up its time one after the other. Each moment of a pass is in the time of
one frame, which takes some time therefore; and that is the frame that is found by taking off one
duration after the other.
-/

namespace DialGraphics.Draw.Sequence

/-! ### When a frame starts -/

/-- When the frame at a place starts in a pass. Behind the last place, that is the end of it. -/
def startOf (frames : List Frame) (k : Nat) : Nat :=
  ((frames.take k).map fun f => f.duration.toNat).sum

/-- A moment of a pass is in the time of the frame at a place. -/
structure IsDuring (frames : List Frame) (t k : Nat) : Prop where
  started : startOf frames k ≤ t
  ongoing : t < startOf frames (k + 1)

section

variable {frames : List Frame} {f : Frame} {j k t : Nat}

theorem startOf_cons_succ (f : Frame) (frames : List Frame) (k : Nat) :
    startOf (f :: frames) (k + 1) = f.duration.toNat + startOf frames k := by
  rw [startOf, List.take_succ_cons, List.map_cons, List.sum_cons, startOf]

theorem startOf_succ (hf : frames[k]? = some f) :
    startOf frames (k + 1) = startOf frames k + f.duration.toNat := by
  rw [startOf, List.take_add_one, hf, List.map_append, List.sum_append]
  rfl

theorem startOf_mono (h : j ≤ k) : startOf frames j ≤ startOf frames k :=
  ((List.take_sublist_take_left h).map _).sum_le_sum fun _ _ => Nat.zero_le _

theorem startOf_length_le (frames : List Frame) :
    startOf frames frames.length ≤ frames.length * 65535 := by
  rw [startOf, List.take_length, ← List.length_map fun f : Frame => f.duration.toNat]
  refine List.sum_le_card_nsmul _ _ fun d hd => ?_
  obtain ⟨f, -, rfl⟩ := List.mem_map.1 hd
  have := f.duration.toNat_lt
  omega

theorem IsDuring.unique (hj : IsDuring frames t j) (hk : IsDuring frames t k) : j = k := by
  have hstarted := hj.started
  have hongoing := hj.ongoing
  have hstarted' := hk.started
  have hongoing' := hk.ongoing
  -- of two frames, the later one starts when the earlier one has ended
  rcases Nat.lt_trichotomy j k with hlt | heq | hgt
  · have hnext : startOf frames (j + 1) ≤ startOf frames k := startOf_mono hlt
    omega
  · exact heq
  · have hnext : startOf frames (k + 1) ≤ startOf frames j := startOf_mono hgt
    omega

theorem IsDuring.duration_ne_zero (h : IsDuring frames t k) (hf : frames[k]? = some f) :
    f.duration ≠ 0 := by
  intro hzero
  have hstarted := h.started
  have hongoing := h.ongoing
  rw [startOf_succ hf, hzero, UInt16.toNat_zero] at hongoing
  omega

/-- Within a pass, a frame is found, and the moment is in the time of that frame. -/
theorem exists_frameWithin? (h : t < startOf frames frames.length) :
    ∃ k f, frames[k]? = some f ∧ frameWithin? t frames = some f ∧ IsDuring frames t k := by
  induction frames generalizing t with
  | nil => exact absurd h (Nat.not_lt_zero t)
  | cons g frames ih =>
    rw [List.length_cons, startOf_cons_succ] at h
    by_cases hfirst : t < g.duration.toNat
    · refine ⟨0, g, rfl, if_pos hfirst, Nat.zero_le t, ?_⟩
      rwa [startOf_cons_succ]
    · obtain ⟨k, f, hf, hfound, hstarted, hongoing⟩ :=
        ih (t := t - g.duration.toNat) (by omega)
      refine ⟨k + 1, f, hf, ?_, ?_, ?_⟩
      · rw [frameWithin?, if_neg hfirst, hfound]
      · rw [startOf_cons_succ]
        omega
      · rw [startOf_cons_succ]
        omega

end

/-! ### Sequences -/

section

variable {s : Sequence}

theorem passDuration_eq (s : Sequence) : s.passDuration = startOf s.frames s.frames.length := by
  rw [passDuration, startOf, List.take_length, List.sum_eq_foldr, List.foldr_map]

theorem length_frames (hvalid : validate s.toBytes = .ok ()) :
    0 < s.frames.length ∧ s.frames.length ≤ 65535 := by
  obtain ⟨frames, h⟩ := exists_isSequence_of_validate hvalid
  obtain ⟨hcount, hhas, -⟩ := has_frames h
  have hpositive : 1 ≤ frames.length := by
    obtain ⟨_, _, _, _, _, _, _, _, _, _, _, -, -, -, hpositive, -⟩ := h
    exact hpositive
  have := s.frameCount.toNat_lt
  rw [← hhas.length_eq]
  omega

/-- A pass ends before a double word does, whatever the frames are. -/
theorem passDuration_le (hvalid : validate s.toBytes = .ok ()) :
    s.passDuration ≤ 65535 * 65535 := by
  rw [passDuration_eq]
  exact (startOf_length_le _).trans (Nat.mul_le_mul_right _ (length_frames hvalid).2)

/-- The frame that is shown before the last pass is over. -/
theorem frameAt?_playing {elapsed : Nat} (hpass : 0 < s.passDuration)
    (hplaying : s.playCount = endless ∨ elapsed < s.totalDuration) :
    ∃ k f, s.frames[k]? = some f ∧ s.frameAt? elapsed = some f
      ∧ frameWithin? (elapsed % s.passDuration) s.frames = some f
      ∧ IsDuring s.frames (elapsed % s.passDuration) k := by
  have hwithin : elapsed % s.passDuration < startOf s.frames s.frames.length := by
    rw [← passDuration_eq]
    exact Nat.mod_lt _ hpass
  obtain ⟨k, f, hf, hfound, hduring⟩ := exists_frameWithin? hwithin
  refine ⟨k, f, hf, ?_, hfound, hduring⟩
  have hgoing : ¬(s.playCount ≠ endless ∧ s.totalDuration ≤ elapsed) := by
    rintro ⟨hfinite, hover⟩
    exact hplaying.elim hfinite (Nat.not_lt_of_le hover)
  simp only [frameAt?, if_neg hgoing, if_neg (Nat.ne_of_gt hpass), hfound]

theorem frameAt?_over {elapsed : Nat} (hfinite : s.playCount ≠ endless)
    (hover : s.totalDuration ≤ elapsed) : s.frameAt? elapsed = s.frames.getLast? :=
  if_pos ⟨hfinite, hover⟩

theorem frameAt?_still (hpass : s.passDuration = 0) (elapsed : Nat) :
    s.frameAt? elapsed = s.frames.getLast? := by
  simp only [frameAt?, hpass, if_true, ite_self]

theorem exists_frameAt? (hvalid : validate s.toBytes = .ok ()) (elapsed : Nat) :
    ∃ f ∈ s.frames, s.frameAt? elapsed = some f := by
  have hlast : ∃ f ∈ s.frames, s.frames.getLast? = some f := by
    have hne := List.ne_nil_of_length_pos (length_frames hvalid).1
    exact ⟨_, List.getLast_mem hne, List.getLast?_eq_some_getLast hne⟩
  rcases Nat.eq_zero_or_pos s.passDuration with hstill | hpass
  · rw [frameAt?_still hstill]
    exact hlast
  · by_cases hplaying : s.playCount = endless ∨ elapsed < s.totalDuration
    · obtain ⟨k, f, hf, hshown, -⟩ := frameAt?_playing hpass hplaying
      exact ⟨f, List.mem_of_getElem? hf, hshown⟩
    · rw [not_or, Nat.not_lt] at hplaying
      rw [frameAt?_over hplaying.1 hplaying.2]
      exact hlast

end

/-! ### Finite sequences and endless ones -/

section

variable {s : Sequence}

/-- A copy can be given another play count, and has the same frames then. -/
theorem exists_setPlayCount (hvalid : validate s.toBytes = .ok ()) (count : UInt16) :
    ∃ t, s.copy.setPlayCount count = .ok t ∧ t.playCount = count ∧ t.frames = s.frames := by
  obtain ⟨frames, h⟩ := exists_isSequence_of_validate hvalid
  obtain ⟨t, hset, hbytes, -, -⟩ :=
    setPlayCount_overwrite (s := s.copy) (headerSize_le h) rfl count
  obtain ⟨version, reserved, w0, w1, h0, h1, p0, p1, n0, n1, parts, hold, -⟩ := h
  have hnew : t.toBytes = version :: reserved :: w0 :: w1 :: h0 :: h1
      :: (Bytes.ofWord16 count ++ n0 :: n1 :: parts.flatten) := by
    rw [hbytes, show s.copy.toBytes = s.toBytes from rfl, hold]
    rfl
  refine ⟨t, hset, ?_, ?_⟩
  · rw [playCount, headerWord, hnew]
    simp only [playCountOffset, List.drop_succ_cons, List.drop_zero, Bytes.word16?_ofWord16_append]
  · have hcount : t.frameCount = s.frameCount := by
      rw [frameCount, frameCount, headerWord, headerWord, hnew, hold]
      rfl
    rw [Sequence.frames, Sequence.frames, hcount, hnew, hold]
    rfl

theorem totalDuration_finite (hfinite : s.playCount ≠ endless) :
    s.totalDuration = min (s.passDuration * s.playCount.toNat) endlessDuration := if_neg hfinite

/-- While a sequence plays, it shows what the one with the same frames shows that plays for ever. -/
theorem frameAt?_eq_of_frames {s t : Sequence} {elapsed : Nat} (hframes : t.frames = s.frames)
    (ht : t.playCount = endless) (hs : elapsed < s.totalDuration) :
    s.frameAt? elapsed = t.frameAt? elapsed := by
  have hpasses : t.passDuration = s.passDuration := by
    rw [passDuration_eq, passDuration_eq, hframes]
  rcases Nat.eq_zero_or_pos s.passDuration with hstill | hpass
  · rw [frameAt?_still hstill, frameAt?_still (hpasses.trans hstill), hframes]
  · obtain ⟨k, f, -, hshown, hfound, -⟩ := frameAt?_playing hpass (Or.inr hs)
    have ht : t.playCount = endless ∨ elapsed < t.totalDuration := Or.inl ht
    obtain ⟨j, g, -, hshown', hfound', -⟩ := frameAt?_playing (hpasses.symm ▸ hpass) ht
    rw [hpasses, hframes, hfound] at hfound'
    rw [hshown, hshown', hfound']

/-- Until all of its passes are over, a finite sequence shows what it would show if it played for
ever, and from then on its last frame. The last moment that a double word can count is different: if
that is before the end, then the last frame is shown already. -/
theorem plays_like_endless (hvalid : validate s.toBytes = .ok ())
    (hfinite : s.playCount ≠ endless) :
    ∃ t, s.copy.setPlayCount endless = .ok t ∧ t.playCount = endless ∧ t.frames = s.frames
      ∧ ∀ elapsed : UInt32,
        (s.passDuration * s.playCount.toNat ≤ elapsed.toNat →
          s.frameAt? elapsed.toNat = s.frames.getLast?)
        ∧ (elapsed.toNat < s.passDuration * s.playCount.toNat →
          (s.frameAt? elapsed.toNat = t.frameAt? elapsed.toNat
            ↔ elapsed ≠ 4294967295 ∨ t.frameAt? elapsed.toNat = s.frames.getLast?)) := by
  obtain ⟨t, hset, ht, hframes⟩ := exists_setPlayCount hvalid endless
  refine ⟨t, hset, ht, hframes, fun elapsed => ⟨fun hover => ?_, fun hgoing => ?_⟩⟩
  · refine frameAt?_over hfinite ?_
    rw [totalDuration_finite hfinite]
    exact (Nat.min_le_left ..).trans hover
  · by_cases hlast : elapsed = 4294967295
    · -- the capped duration is reached, though not all passes are over
      have hcapped : s.totalDuration ≤ elapsed.toNat := by
        rw [totalDuration_finite hfinite, hlast]
        exact Nat.min_le_right ..
      rw [frameAt?_over hfinite hcapped, eq_comm]
      exact ⟨Or.inr, fun h => h.resolve_left (not_not_intro hlast)⟩
    · have hbefore : elapsed.toNat < endlessDuration := by
        have hne : elapsed.toNat ≠ 4294967295 := fun h => hlast (UInt32.toNat_inj.1 h)
        have := elapsed.toNat_lt
        unfold endlessDuration
        omega
      have hplaying : elapsed.toNat < s.totalDuration := by
        rw [totalDuration_finite hfinite]
        exact Nat.lt_min.2 ⟨hgoing, hbefore⟩
      exact ⟨fun _ => Or.inl hlast, fun _ => frameAt?_eq_of_frames hframes ht hplaying⟩

end

/-- A long frame and a short one, played so often that a double word cannot count the time. -/
def longAndShort : Sequence :=
  ⟨.owned [1, 0, 0, 0, 0, 0, 254, 255, 2, 0, 255, 255, 0, 0, 4, 0, 0, 0]⟩

theorem plays_like_endless_longAndShort :
    validate longAndShort.toBytes = .ok () ∧ longAndShort.playCount ≠ endless
      ∧ ∃ t, longAndShort.copy.setPlayCount endless = .ok t
        ∧ longAndShort.frameAt? 4294967294 = t.frameAt? 4294967294
        ∧ (t.frameAt? 4294967294).map Frame.duration = some 65535 := by
  have hvalid : validate longAndShort.toBytes = .ok () := by decide
  have hfinite : longAndShort.playCount ≠ endless := by decide
  refine ⟨hvalid, hfinite, ?_⟩
  obtain ⟨t, hset, -, -, hplays⟩ := plays_like_endless hvalid hfinite
  refine ⟨t, hset, ((hplays 4294967294).2 (by decide)).2 (Or.inl (by decide)), ?_⟩
  cases hset
  decide

/-- At the last moment that a double word can count, the last pass is not over, and the last frame
is shown in place of the first one. -/
theorem last_frame_before_end :
    validate longAndShort.toBytes = .ok () ∧ longAndShort.playCount ≠ endless
      ∧ 4294967295 < longAndShort.passDuration * longAndShort.playCount.toNat
      ∧ ∃ t, longAndShort.copy.setPlayCount endless = .ok t
        ∧ (longAndShort.frameAt? 4294967295).map Frame.duration = some 4
        ∧ (t.frameAt? 4294967295).map Frame.duration = some 65535 :=
  ⟨by decide, by decide, by decide, _, rfl, by decide, by decide⟩

end DialGraphics.Draw.Sequence
