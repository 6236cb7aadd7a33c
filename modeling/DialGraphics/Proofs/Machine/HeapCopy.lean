import DialGraphics.Machine.HeapCopy
import DialGraphics.Proofs.Resource.HeapCopies

/-!
# Heap copies as views

Whatever is done to a heap copy, no change stops the machine, the stretch stays in the buffer, and
its bytes are those of a view in place that is narrowed by the same amounts.
-/

namespace DialGraphics.Machine

namespace HeapCopy

variable {h : HeapBytes}

/-! ### One change -/

theorem toBytes_eq (hstop : h.start + h.length < 2 ^ 64) : (ofHeap h).toBytes = .ok h.toBytes := by
  have hwithin := h.within
  have hfront : (h.buffer.take (h.start + h.length)).length = h.start + h.length :=
    List.length_take_of_le hwithin
  simp only [toBytes]
  rw [add_eq hstop, ok_bind, sliceTo_eq hwithin, ok_bind, sliceFrom_eq (by omega),
    List.drop_take, Nat.add_sub_cancel_left]
  rfl

theorem align_eq (hroom : h.buffer.length < 2 ^ 63) {alignment : Nat}
    (hword : alignment < 2 ^ 64) :
    (ofHeap h).align alignment
      = .ok ((h.align alignment).1, ofHeap (h.align alignment).2) := by
  have hwithin := h.within
  by_cases hpower : HeapBytes.isPowerOfTwo alignment = true
  · have hpos := HeapBytes.pos_of_isPowerOfTwo hpower
    have hhalf : alignment ≤ 2 ^ 63 := by
      obtain ⟨k, rfl⟩ := HeapBytes.isPowerOfTwo_iff.1 hpower
      have hk : k < 64 := (Nat.pow_lt_pow_iff_right (by decide)).1 hword
      exact Nat.pow_le_pow_right (by decide) (by omega)
    have htarget : HeapBytes.alignedStart h.base alignment < alignment :=
      HeapBytes.alignedStart_lt hpos
    have hpast := Nat.mod_lt h.base hpos
    have htaken : ¬ (alignment = 0 ∨ ¬ HeapBytes.isPowerOfTwo alignment = true) := by
      rintro (hzero | hother)
      · omega
      · exact hother hpower
    unfold align
    rw [if_neg htaken]
    simp only [ofHeap]
    rw [rem_eq hpos, ok_bind, sub_eq (by omega), ok_bind, rem_eq hpos, ok_bind,
      ← HeapBytes.alignedStart, add_eq (by omega), ok_bind]
    by_cases room : HeapBytes.alignedStart h.base alignment + h.length ≤ h.buffer.length
    · rw [HeapBytes.align_of_room hpower room, if_neg (Nat.not_lt.2 room)]
      by_cases hthere : HeapBytes.alignedStart h.base alignment = h.start
      · rw [if_pos hthere]
        simp only [hthere, Bytes.move_self hwithin]
      · rw [if_neg hthere, add_eq (by omega), ok_bind,
          copyWithin_eq (by omega) hwithin (by omega), ok_bind, Nat.add_sub_cancel_left]
    · rw [HeapBytes.align_of_refused fun hfits => room hfits.2, if_pos (Nat.not_le.1 room)]
  · have hrefused := HeapBytes.align_of_refused (h := h) fun hfits => hpower hfits.1
    rw [hrefused]
    exact if_pos (Or.inr hpower)

theorem advance_eq (hroom : h.buffer.length < 2 ^ 63) (n : Nat) :
    (ofHeap h).advance n = .ok (ofHeap (h.advance n)) := by
  have hwithin := h.within
  have hkept : h.start + h.length - (h.start + min n h.length) = h.length - min n h.length := by
    omega
  simp only [advance]
  rw [add_eq (by omega), ok_bind, add_eq (by omega), ok_bind,
    copyWithin_eq (by omega) hwithin (by omega), ok_bind, sub_eq (by omega), ok_bind, hkept]
  rfl

theorem detach_eq (hroom : h.buffer.length < 2 ^ 63) : (ofHeap h).detach = .ok h.detach := by
  have hwithin := h.within
  simp only [detach]
  split
  · rename_i hfront
    rw [h.toBytes_detach, HeapBytes.toBytes, hfront, List.drop_zero]
  · rw [add_eq (by omega), ok_bind, copyWithin_eq (by omega) hwithin (by omega), ok_bind,
      Nat.add_sub_cancel_left]
    rfl

/-! ### Any changes -/

theorem change_eq (hroom : h.buffer.length < 2 ^ 63) (c : Change) :
    ∃ h' : HeapBytes, c.applied (.heap h) = .heap h' ∧ (ofHeap h).change c = .ok (ofHeap h')
      ∧ h'.base = h.base ∧ h'.buffer.length = h.buffer.length := by
  have hwithin := h.within
  cases c with
  | advance n =>
    have hbuffer : (h.advance n.toNat).buffer.length = h.buffer.length :=
      Bytes.length_move (by omega)
    exact ⟨_, rfl, advance_eq hroom n.toNat, rfl, hbuffer⟩
  | align alignment =>
    refine ⟨_, rfl, ?_, ?_⟩
    · simp only [change]
      rw [align_eq hroom alignment.toNat_lt]
      rfl
    · obtain ⟨-, hpower, room⟩ | ⟨hrefused, -⟩ := h.align_cases alignment.toNat
      · rw [HeapBytes.align_of_room hpower room]
        exact ⟨rfl, Bytes.length_move room⟩
      · rw [hrefused]
        exact ⟨rfl, rfl⟩

theorem toBytes_applied (key : ResourceKey) (r : ResourceBytes) (c : Change) :
    c.applied (.mapped key r.toBytes) = .mapped key (c.applied r).toBytes := by
  cases c with
  | advance n => exact congrArg _ (r.toBytes_advance n.toNat).symm
  | align alignment =>
    cases r with
    | mapped key' bytes => rfl
    | heap copy => exact congrArg _ (copy.toBytes_align alignment.toNat).symm

/-- A copy keeps its buffer through all changes, and holds what a view in place holds. -/
theorem run_eq (hroom : h.buffer.length < 2 ^ 63) (key : ResourceKey) (changes : List Change) :
    ∃ h' : HeapBytes, changes.foldl Change.applied (.heap h) = .heap h'
      ∧ (ofHeap h).run changes = .ok (ofHeap h') ∧ h'.base = h.base
      ∧ h'.buffer.length = h.buffer.length
      ∧ h'.toBytes = (changes.foldl Change.applied (.mapped key h.toBytes)).toBytes := by
  induction changes generalizing h with
  | nil => exact ⟨h, rfl, rfl, rfl, rfl, rfl⟩
  | cons c changes ih =>
    obtain ⟨next, hnext, hstep, hbase, hbuffer⟩ := change_eq hroom c
    have hview := toBytes_applied key (.heap h) c
    rw [hnext] at hview
    simp only [ResourceBytes.toBytes] at hview
    obtain ⟨h', hlast, hrun, hbase', hbuffer', hsame⟩ := ih (h := next) (hbuffer ▸ hroom)
    have hboth : (ofHeap h).run (c :: changes) = .ok (ofHeap h') := by
      rw [run, List.foldlM_cons, hstep, ok_bind]
      exact hrun
    refine ⟨h', ?_, hboth, hbase'.trans hbase, hbuffer'.trans hbuffer, ?_⟩
    · rw [List.foldl_cons, hnext, hlast]
    · rw [hsame, List.foldl_cons, hview]

/-- A heap copy is a view that narrows. Whatever is given up or aligned, the stretch lies in the
buffer and holds what a view in place of the same bytes holds, also when it is detached. It can be
aligned if any aligned place of the buffer has room for it; otherwise nothing changes. No buffer has
2 ^ 63 bytes: that is more than can be allocated at once. -/
theorem heapCopy_is_view (base : Nat) (key : ResourceKey) {bytes : Bytes} {pad : Nat}
    (hroom : bytes.length + pad < 2 ^ 63) (changes : List Change) :
    ∃ h : HeapBytes, changes.foldl Change.applied (.heap (.ofPadded base bytes pad)) = .heap h
      ∧ (ofHeap (.ofPadded base bytes pad)).run changes = .ok (ofHeap h)
      ∧ h.base = base ∧ h.buffer.length = bytes.length + pad
      ∧ h.start + h.length ≤ h.buffer.length
      ∧ h.toBytes = (changes.foldl Change.applied (.mapped key bytes)).toBytes
      ∧ (ofHeap h).toBytes = .ok h.toBytes
      ∧ h.detach = h.toBytes ∧ (ofHeap h).detach = .ok h.detach
      ∧ ∀ alignment : UInt64, ∃ done h',
        (ofHeap h).align alignment.toNat = .ok (done, ofHeap h')
        ∧ h.align alignment.toNat = (done, h')
        ∧ (done = true ↔ (∃ k, alignment.toNat = 2 ^ k) ∧ ∃ offset,
          offset + h.length ≤ h.buffer.length ∧ alignment.toNat ∣ base + offset)
        ∧ (done = true → alignment.toNat ∣ base + h'.start)
        ∧ (done = false → h' = h) := by
  have hlength : (HeapBytes.ofPadded base bytes pad).buffer.length = bytes.length + pad := by
    rw [HeapBytes.ofPadded, List.length_append, List.length_replicate]
  obtain ⟨h, hlast, hrun, rfl, hbuffer, hsame⟩ := run_eq (hlength.trans_lt hroom) key changes
  rw [HeapBytes.toBytes_ofPadded] at hsame
  have hroom' : h.buffer.length < 2 ^ 63 := (hbuffer.trans hlength).trans_lt hroom
  have hstop : h.start + h.length < 2 ^ 64 := h.within.trans_lt (by omega)
  refine ⟨h, hlast, hrun, rfl, hbuffer.trans hlength, h.within, hsame, toBytes_eq hstop,
    h.toBytes_detach, detach_eq hroom', fun alignment => ?_⟩
  exact ⟨_, _, align_eq hroom' alignment.toNat_lt, rfl, HeapBytes.align_eq_true_iff,
    HeapBytes.dvd_of_align, HeapBytes.align_unchanged⟩

/-- Moved to address 8 and shortened there. The next multiple of 16 has no room for the rest. -/
theorem heapCopy_is_view_refused :
    let h : HeapBytes := ⟨6, [1, 2, 3, 4, 5, 4, 5, 0], 2, 3, by decide⟩
    ([1, 2, 3, 4, 5] : Bytes).length + 3 < 2 ^ 63
      ∧ (ofHeap (.ofPadded 6 [1, 2, 3, 4, 5] 3)).run [.align 4, .advance 2] = .ok (ofHeap h)
      ∧ (ofHeap h).detach = .ok [3, 4, 5] ∧ (ofHeap h).align 16 = .ok (false, ofHeap h) := by
  intro h
  have hroom : ([1, 2, 3, 4, 5] : Bytes).length + 3 < 2 ^ 63 := by decide
  obtain ⟨h', hlast, hrun, -, -, -, -, -, -, hdetach, halign⟩ :=
    heapCopy_is_view 6 ⟨0, 0⟩ hroom [.align 4, .advance 2]
  obtain rfl : h = h' := ResourceBytes.heap.inj hlast
  obtain ⟨done, after, hmachine, hdone, -, -, hsame⟩ := halign 16
  obtain ⟨rfl, rfl⟩ := Prod.mk.inj (show (false, h) = (done, after) from hdone)
  exact ⟨hroom, hrun, hdetach, hmachine⟩

end HeapCopy

end DialGraphics.Machine
