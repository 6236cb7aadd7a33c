import DialGraphics.Machine.PlayingTime
import DialGraphics.Proofs.Draw.PlayingTime

/-!
# Playing time never overflows

A sequence has at most 65535 frames of at most 65535 milliseconds, which is less than a double word
can count. So its time is computed without a sum or a difference that does not fit, and what is
shown is what `frameAt?` says.
-/

namespace DialGraphics.Machine

open Draw Sequence

section

variable {frames : List Frame}

theorem foldlM_add_eq {total : Nat} (h : total + startOf frames frames.length < 2 ^ 32) :
    frames.foldlM (fun total f => add 32 total f.duration.toNat) total
      = .ok (total + startOf frames frames.length) := by
  induction frames generalizing total with
  | nil => rfl
  | cons f frames ih =>
    rw [List.length_cons, startOf_cons_succ, ← Nat.add_assoc] at h ⊢
    rw [List.foldlM_cons, add_eq (by omega), ok_bind, ih h]

theorem frameWithin?_eq (t : Nat) (frames : List Frame) :
    frameWithin? t frames = .ok (Sequence.frameWithin? t frames) := by
  induction frames generalizing t with
  | nil => rfl
  | cons f frames ih =>
    unfold frameWithin? Sequence.frameWithin?
    split
    · rfl
    · rename_i hlater
      rw [sub_eq (Nat.le_of_not_lt hlater), ok_bind, ih]

end

section

variable {s : Sequence}

theorem passDuration_eq (hvalid : validate s.toBytes = .ok ()) :
    passDuration s.frames = .ok s.passDuration := by
  have hle := passDuration_le hvalid
  rw [Sequence.passDuration_eq] at hle ⊢
  rw [passDuration, foldlM_add_eq (by omega), Nat.zero_add]

theorem totalDuration_eq (hvalid : validate s.toBytes = .ok ()) :
    totalDuration s = .ok s.totalDuration := by
  unfold totalDuration Sequence.totalDuration
  split
  · rfl
  · rw [passDuration_eq hvalid, ok_bind]
    rfl

theorem isOver_eq (hvalid : validate s.toBytes = .ok ()) (elapsed : Nat) :
    isOver s elapsed = .ok (decide (s.playCount ≠ endless ∧ s.totalDuration ≤ elapsed)) := by
  unfold isOver
  split
  · rename_i hendless
    rw [decide_eq_false fun h => h.1 hendless]
  · rename_i hfinite
    rw [totalDuration_eq hvalid, ok_bind]
    simp only [ne_eq, hfinite, not_false_eq_true, true_and]

theorem frameAt?_eq (hvalid : validate s.toBytes = .ok ()) (elapsed : Nat) :
    frameAt? s elapsed = .ok (s.frameAt? elapsed) := by
  unfold frameAt? Sequence.frameAt?
  rw [isOver_eq hvalid, ok_bind]
  simp only [decide_eq_true_iff]
  split
  · rfl
  · rw [passDuration_eq hvalid, ok_bind]
    split
    · rfl
    · rename_i hpass
      rw [rem_eq (Nat.pos_of_ne_zero hpass), ok_bind, frameWithin?_eq, ok_bind]
      cases Sequence.frameWithin? (elapsed % s.passDuration) s.frames with
      | none => rfl
      | some f => rfl

end

/-- What a sequence without an end shows at some time: the one frame in whose time the moment of the
pass is. That frame takes some time, it is found while the frames are walked, and it is shown again
one pass later. -/
structure ShowsInTurn (s : Sequence) (elapsed : Nat) : Prop where
  shown : ∃ k f, s.frames[k]? = some f ∧ frameAt? s elapsed = .ok (some f)
    ∧ frameWithin? (elapsed % s.passDuration) s.frames = .ok (some f) ∧ f.duration ≠ 0
    ∧ ∀ j, IsDuring s.frames (elapsed % s.passDuration) j ↔ j = k
  next_pass : frameAt? s (elapsed + s.passDuration) = frameAt? s elapsed

theorem showsInTurn {s : Sequence} (hvalid : validate s.toBytes = .ok ())
    (hendless : s.playCount = endless) (hpass : 0 < s.passDuration) (elapsed : Nat) :
    ShowsInTurn s elapsed := by
  have hplaying : ∀ elapsed, s.playCount = endless ∨ elapsed < s.totalDuration :=
    fun _ => Or.inl hendless
  obtain ⟨k, f, hf, hshown, hfound, hduring⟩ := frameAt?_playing hpass (hplaying elapsed)
  obtain ⟨-, g, -, hshown', hfound', -⟩ :=
    frameAt?_playing hpass (hplaying (elapsed + s.passDuration))
  rw [Nat.add_mod_right, hfound] at hfound'
  refine ⟨⟨k, f, hf, ?_, ?_, hduring.duration_ne_zero hf, fun j => ?_⟩, ?_⟩
  · rw [frameAt?_eq hvalid, hshown]
  · rw [frameWithin?_eq, hfound]
  · constructor
    · exact fun hj => hj.unique hduring
    · rintro rfl
      exact hduring
  · rw [frameAt?_eq hvalid, frameAt?_eq hvalid, hshown', hshown, hfound']

/-- The time of a valid sequence is computed without overflow, and some frame is shown at any time.
In a sequence without an end the frames take turns, as long as one of them takes some time. -/
theorem frames_take_turns (s : Sequence) (hvalid : validate s.toBytes = .ok ()) :
    passDuration s.frames = .ok s.passDuration
      ∧ s.passDuration = (s.frames.map fun f => f.duration.toNat).sum
      ∧ totalDuration s = .ok (if s.playCount = endless then 4294967295
          else min (s.passDuration * s.playCount.toNat) 4294967295)
      ∧ (∀ elapsed, ∃ f ∈ s.frames, frameAt? s elapsed = .ok (some f)
          ∧ s.frameAt? elapsed = some f)
      ∧ (s.playCount = endless → ∀ elapsed,
          (0 < s.passDuration → ShowsInTurn s elapsed)
          ∧ (s.passDuration = 0 → frameAt? s elapsed = .ok s.frames.getLast?)) := by
  refine ⟨passDuration_eq hvalid, ?_, totalDuration_eq hvalid, fun elapsed => ?_,
    fun hendless elapsed => ⟨fun hpass => showsInTurn hvalid hendless hpass elapsed,
      fun hstill => ?_⟩⟩
  · rw [Sequence.passDuration_eq, startOf, List.take_length]
  · obtain ⟨f, hf, hshown⟩ := exists_frameAt? hvalid elapsed
    exact ⟨f, hf, by rw [frameAt?_eq hvalid, hshown], hshown⟩
  · rw [frameAt?_eq hvalid, frameAt?_still hstill]

/-- A sequence without an end, with a frame that takes no time between two that do. -/
def twoTurns : Sequence :=
  ⟨.owned [1, 0, 0, 0, 0, 0, 255, 255, 3, 0, 100, 0, 0, 0, 0, 0, 0, 0, 200, 0, 0, 0]⟩

theorem frames_take_turns_twoTurns :
    validate twoTurns.toBytes = .ok () ∧ twoTurns.playCount = endless
      ∧ 0 < twoTurns.passDuration ∧ passDuration twoTurns.frames = .ok 300
      ∧ frameAt? twoTurns 700 = .ok twoTurns.frames[2]? := by
  have hvalid : validate twoTurns.toBytes = .ok () := by decide
  have hendless : twoTurns.playCount = endless := by decide
  have hpass : 0 < twoTurns.passDuration := by decide
  obtain ⟨hsum, -, -, -, hturns⟩ := frames_take_turns twoTurns hvalid
  refine ⟨hvalid, hendless, hpass, hsum, ?_⟩
  obtain ⟨k, f, hf, hshown, -, -, hunique⟩ := ((hturns hendless 700).1 hpass).shown
  have hduring : IsDuring twoTurns.frames (700 % twoTurns.passDuration) 2 :=
    ⟨by decide, by decide⟩
  rw [hshown, (hunique 2).1 hduring, hf]

end DialGraphics.Machine
