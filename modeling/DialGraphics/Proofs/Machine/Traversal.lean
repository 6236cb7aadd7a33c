import DialGraphics.Machine.Traversal
import DialGraphics.Proofs.Draw.Traversal

/-!
# Views and slots agree

Whatever the bytes are, no walk stops the machine: a size that is found is never more than the bytes
that are left, and the places of 65535 items fit a word. In a validated container that may be
written to, the slots are where the views are.
-/

namespace DialGraphics.Machine

open Draw

/-! ### Records -/

theorem recordSize?_le {bytes : Bytes} {size : Nat} (h : recordSize? bytes = some size) :
    size ≤ bytes.length := by
  obtain ⟨⟨r, rest⟩, hread, rfl⟩ := Option.map_eq_some_iff.1 h
  have hlength := Record.length_of_read? hread
  simp only
  omega

theorem recordOf?_toBytes (r : Record) :
    recordOf? (r.toBytes.take recordHeaderSize) (r.toBytes.drop recordHeaderSize) = some r := by
  have hbytes := r.toBytes_append []
  rw [List.append_nil, List.append_nil] at hbytes
  rw [hbytes]
  simp only [recordHeaderSize, List.take_succ_cons, List.take_zero, List.drop_succ_cons,
    List.drop_zero, recordOf?, Kind.ofNumber?_number, Bytes.word16_ofWord16, Option.map_some]

theorem recordHeaderSize_le (r : Record) : recordHeaderSize ≤ r.toBytes.length := by
  rw [r.length_toBytes]
  exact Nat.le_add_right ..

theorem parseRecord_eq (bytes : Bytes) : parseRecord bytes = .ok (Record.read? bytes) := by
  unfold parseRecord recordSize?
  cases hread : Record.read? bytes with
  | none => rfl
  | some found =>
    obtain ⟨r, rest⟩ := found
    obtain ⟨-, rfl⟩ := Record.eq_toBytes_append_of_read? hread
    have hsplit : splitAt (r.toBytes ++ rest) r.size = .ok (r.toBytes, rest) := by
      rw [← r.length_toBytes, splitAt_eq (by rw [List.length_append]; omega), List.take_left,
        List.drop_left]
    have hheader : (r.toBytes.take recordHeaderSize).length = recordHeaderSize :=
      List.length_take_of_le (recordHeaderSize_le r)
    have hparts : Bytes.splitAt? recordHeaderSize r.toBytes
        = some (r.toBytes.take recordHeaderSize, r.toBytes.drop recordHeaderSize) :=
      Bytes.splitAt?_eq_some_iff.2 ⟨hheader, (List.take_append_drop ..).symm⟩
    simp only [Option.map_some, hsplit, ok_bind, pull?_eq, hparts, recordOf?_toBytes]

theorem parseRecordSlot_eq (bytes : Bytes) :
    parseRecordSlot bytes
      = .ok ((recordSize? bytes).map fun size => (bytes.take size, bytes.drop size)) := by
  unfold parseRecordSlot
  cases hsize : recordSize? bytes with
  | none => rfl
  | some size =>
    simp only
    rw [splitAt_eq (recordSize?_le hsize)]
    rfl

/-- What is read from a slot is what was read as a view. -/
theorem recordView_toBytes (r : Record) : recordView r.toBytes = .ok (some r) := by
  unfold recordView
  rw [sliceTo_eq (recordHeaderSize_le r), ok_bind, sliceFrom_eq (recordHeaderSize_le r), ok_bind,
    recordOf?_toBytes]

/-! ### Lists and frames -/

theorem parseList_eq (bytes : Bytes) : parseList bytes = .ok (CommandList.read? bytes) := by
  unfold parseList
  cases hsize : listSize? bytes with
  | none =>
    simp only [CommandList.read?, hsize]
  | some size =>
    obtain ⟨l, rest, hwell, rfl, rfl⟩ := CommandList.exists_of_listSize? hsize
    have hsplit : splitAt (l.toBytesWith id ++ rest) l.size = .ok (l.toBytesWith id, rest) := by
      rw [hwell.size_eq, splitAt_eq (by rw [List.length_append]; omega), List.take_left,
        List.drop_left]
    have hlist : l.toBytesWith id = UInt8.ofNat (l.count.toNat % 256)
        :: UInt8.ofNat (l.count.toNat / 256) :: l.records := hwell.toBytesWith_id
    have hrecords : countSize ≤ (l.toBytesWith id).length := by
      rw [hlist, List.length_cons, List.length_cons, countSize]
      omega
    rw [hwell.read?_append]
    simp only [hsplit, ok_bind]
    rw [get_eq (congrArg (·[0]?) hlist), ok_bind, get_eq (congrArg (·[1]?) hlist), ok_bind,
      sliceFrom_eq hrecords, ok_bind, hlist, Bytes.word16_ofWord16]
    rfl

theorem parseFrame_eq (bytes : Bytes) : parseFrame bytes = .ok (Frame.read? bytes) := by
  unfold parseFrame
  rw [pull?_eq, ok_bind]
  match bytes with
  | [] => rfl
  | [_] => rfl
  | d0 :: d1 :: rest =>
    have hparts : Bytes.splitAt? durationSize (d0 :: d1 :: rest) = some ([d0, d1], rest) := rfl
    simp only [hparts, parseList_eq, ok_bind]
    rfl

/-- The slot of a frame that was read. -/
def slotOf (f : Frame) : FrameSlot := ⟨Bytes.ofWord16 f.duration, f.commands⟩

theorem parseFrameSlot_eq (bytes : Bytes) :
    parseFrameSlot bytes = .ok ((Frame.read? bytes).map fun (f, rest) => (slotOf f, rest)) := by
  unfold parseFrameSlot
  match bytes with
  | [] => rfl
  | [_] => rfl
  | d0 :: d1 :: rest =>
    have hlong : ¬ (d0 :: d1 :: rest).length < durationSize := by
      simp only [List.length_cons, durationSize]
      omega
    have hparts : splitAt (d0 :: d1 :: rest) durationSize = .ok ([d0, d1], rest) :=
      splitAt_eq (Nat.le_of_not_lt hlong)
    rw [if_neg hlong, hparts, ok_bind]
    simp only [parseList_eq, ok_bind, Frame.read?, Bytes.word16?, Option.map_map]
    congr 2
    funext found
    simp only [Function.comp_apply, slotOf, Bytes.ofWord16_word16]

theorem frameView_slotOf (f : Frame) : frameView (slotOf f) = .ok f := by
  unfold frameView slotOf
  rw [get_eq rfl, ok_bind, get_eq rfl, ok_bind, Bytes.word16_ofWord16]

/-! ### Walks -/

section

variable {α σ : Type} {parse : Bytes → Checked (Option (α × Bytes))}
  {read : Bytes → Option (α × Bytes)}

/-- The items of a walk. -/
def items (read : Bytes → Option (α × Bytes)) : Nat → Bytes → List α
  | 0, _ => []
  | n + 1, bytes =>
    match read bytes with
    | none => []
    | some (x, rest) => x :: items read n rest

theorem nth_eq (hparse : ∀ bytes, parse bytes = .ok (read bytes)) (n index : Nat) (bytes : Bytes) :
    nth parse n index bytes = .ok (items read n bytes)[index]? := by
  induction n generalizing index bytes with
  | zero => rfl
  | succ n ih =>
    rw [nth, hparse, ok_bind, items]
    cases read bytes with
    | none => rfl
    | some found =>
      cases index with
      | zero => rfl
      | succ index => exact ih index found.2

theorem forEach_eq (hparse : ∀ bytes, parse bytes = .ok (read bytes))
    (op : Nat → α → σ → Bool × σ) {n i : Nat} (hplaces : i + n ≤ 65535) (bytes : Bytes) (s : σ) :
    forEach parse op n i bytes s = .ok (visit op (i + 1) (items read n bytes) s) := by
  induction n generalizing i bytes s with
  | zero => rfl
  | succ n ih =>
    have hplace : add 16 (i % 2 ^ 16) 1 = .ok (i + 1) := by
      rw [Nat.mod_eq_of_lt (by omega), add_eq (by omega)]
    rw [forEach, hparse, ok_bind, items]
    cases read bytes with
    | none => rfl
    | some found =>
      simp only [hplace, ok_bind, visit]
      rcases op (i + 1) found.1 s with ⟨goesOn, next⟩
      cases goesOn with
      | false => rfl
      | true => exact ih (by omega) found.2 next

end

theorem walk_eq_items (n : Nat) (bytes : Bytes) :
    CommandList.walk n bytes = items Record.read? n bytes := by
  induction n generalizing bytes with
  | zero => rfl
  | succ n ih =>
    rw [CommandList.walk, items]
    cases Record.read? bytes with
    | none => rfl
    | some found => simp only [ih]

theorem frames_eq_items (n : Nat) (bytes : Bytes) :
    Frame.walk n bytes = items Frame.read? n bytes := by
  induction n generalizing bytes with
  | zero => rfl
  | succ n ih =>
    rw [Frame.walk, items]
    cases Frame.read? bytes with
    | none => rfl
    | some found => simp only [ih]

theorem command?_eq (l : CommandList) (index : Nat) : command? l index = .ok (l.get? index) := by
  rw [command?, nth_eq parseRecord_eq, ← walk_eq_items]
  rfl

theorem forEachCommand_eq {σ : Type} (l : CommandList) (op : Nat → Record → σ → Bool × σ) (s : σ) :
    forEachCommand l op s = .ok (l.forEach op s) := by
  have hcount := l.count.toNat_lt
  rw [forEachCommand, forEach_eq parseRecord_eq op (by omega), ← walk_eq_items]
  rfl

theorem frame?_eq (s : Sequence) (index : Nat) : frame? s index = .ok (s.frame? index) := by
  rw [frame?, nth_eq parseFrame_eq, ← frames_eq_items]
  rfl

theorem forEachFrame_eq {σ : Type} (s : Sequence) (op : Nat → Frame → σ → Bool × σ) (state : σ) :
    forEachFrame s op state = .ok (s.forEach op state) := by
  have hcount := s.frameCount.toNat_lt
  rw [forEachFrame, forEach_eq parseFrame_eq op (by omega), ← frames_eq_items]
  rfl

/-! ### Slots -/

theorem recordSlot?_eq (n index : Nat) (bytes : Bytes) :
    recordSlot? n index bytes = .ok ((ListEdit.locate? n index bytes).map (·.2.1)) := by
  induction n generalizing index bytes with
  | zero =>
    unfold recordSlot?
    rw [Nat.min_zero, skip, ok_bind]
    exact if_pos (Nat.zero_le index)
  | succ n ih =>
    unfold recordSlot?
    rw [ListEdit.locate?]
    cases index with
    | zero =>
      rw [Nat.zero_min, skip, ok_bind]
      simp only [parseRecordSlot_eq, ok_bind]
      rw [if_neg (Nat.not_succ_le_zero n)]
      cases recordSize? bytes with
      | none => rfl
      | some size => rfl
    | succ index =>
      rw [Nat.succ_min_succ, skip]
      cases hsize : recordSize? bytes with
      | none => rfl
      | some size =>
        have hrest := ih index (bytes.drop size)
        unfold recordSlot? at hrest
        simp only [sliceFrom_eq (recordSize?_le hsize), ok_bind, Nat.succ_le_succ_iff]
        rw [hrest, Option.map_map]
        rfl

theorem forEachSlot_eq {σ : Type} (op : Nat → Bytes → σ → Bool × Bytes × σ) {n i : Nat}
    (hplaces : i + n ≤ 65535) (bytes : Bytes) (s : σ) :
    forEachSlot op n i bytes s = .ok (ListEdit.editEach op n (i + 1) bytes s) := by
  induction n generalizing i bytes s with
  | zero => rfl
  | succ n ih =>
    have hplace : add 16 i 1 = .ok (i + 1) := add_eq (by omega)
    rw [forEachSlot, parseRecordSlot_eq, ok_bind, ListEdit.editEach]
    cases recordSize? bytes with
    | none => rfl
    | some size =>
      simp only [Option.map_some, hplace, ok_bind]
      rcases op (i + 1) (bytes.take size) s with ⟨goesOn, slot, next⟩
      cases goesOn with
      | false => rfl
      | true => simp only [ih (i := i + 1) (by omega), ok_bind]

theorem frameSize?_le {bytes : Bytes} {size : Nat} (h : frameSize? bytes = some size) :
    size ≤ bytes.length := by
  obtain ⟨commands, frame, rest, -, rfl, rfl⟩ := exists_frame_of_frameSize? h
  rw [List.length_append]
  exact Nat.le_add_right ..

theorem read?_take_frameSize {bytes : Bytes} {size : Nat} (h : frameSize? bytes = some size) :
    ∃ f rest, Frame.read? bytes = some (f, rest) ∧
      Frame.read? (bytes.take size) = some (f, []) := by
  obtain ⟨f, rest, hwell, rfl, -⟩ := Frame.exists_of_frameSize? h
  rw [Frame.frameSize?_append hwell] at h
  cases h
  rw [List.take_left]
  exact ⟨f, rest, Frame.read?_eq_some_iff.2 ⟨hwell, rfl⟩,
    Frame.read?_eq_some_iff.2 ⟨hwell, (List.append_nil _).symm⟩⟩

theorem read?_eq_none_of_frameSize {bytes : Bytes} (h : frameSize? bytes = none) :
    Frame.read? bytes = none := by
  cases hread : Frame.read? bytes with
  | none => rfl
  | some found =>
    obtain ⟨hwell, rfl⟩ := Frame.read?_eq_some_iff.1 hread
    rw [Frame.frameSize?_append hwell] at h
    cases h

theorem frameSlotBehind?_eq (index : Nat) (bytes : Bytes) :
    frameSlotBehind? index bytes
      = .ok (((Sequence.locateFrame? index bytes).map (·.2.1)).bind fun frame =>
        (Frame.read? frame).map fun f => slotOf f.1) := by
  induction index generalizing bytes with
  | zero =>
    unfold frameSlotBehind? Sequence.locateFrame?
    rw [skip, ok_bind]
    simp only [parseFrameSlot_eq, ok_bind]
    cases hsize : frameSize? bytes with
    | none =>
      rw [read?_eq_none_of_frameSize hsize]
      rfl
    | some size =>
      obtain ⟨f, rest, hread, htake⟩ := read?_take_frameSize hsize
      simp only [hread, htake, Option.map_some, Option.bind_some]
  | succ index ih =>
    unfold frameSlotBehind? Sequence.locateFrame?
    rw [skip]
    cases hsize : frameSize? bytes with
    | none => rfl
    | some size =>
      have hrest := ih (bytes.drop size)
      unfold frameSlotBehind? at hrest
      simp only [sliceFrom_eq (frameSize?_le hsize), ok_bind]
      rw [hrest, Option.map_map]
      rfl

/-! ### Containers that were checked -/

/-- The two ways to the commands of a list. There is a view and a slot for each place in front of
the count, and what is read from a slot is what the view has. All views, and all slots, are visited
as a list is: in order and with their places, up to the first answer to stop. -/
structure CommandsAgree (l : CommandList) : Prop where
  view : ∀ index, command? l index = .ok (l.get? index)
    ∧ ((l.get? index).isSome = true ↔ index < l.count.toNat)
  slot : ∀ index, commandSlot? l index = .ok ((l.get? index).map Record.toBytes)
  slotView : ∀ index r, l.get? index = some r → recordView r.toBytes = .ok (some r)
  each : ∀ {σ : Type} (op : Nat → Record → σ → Bool × σ) s,
    forEachCommand l op s = .ok (l.forEach op s)
  eachSlot : ∀ {σ : Type} (op : Nat → Bytes → σ → Bool × Bytes × σ) s, ∃ bytes,
    forEachCommandSlot l op s
      = .ok ((l.forEach (onSlot op) s).1, bytes, (l.forEach (onSlot op) s).2)
  visits : ∀ {σ : Type} (op : Nat → Record → σ → Bool × σ) s, ∃ calls,
    l.forEach (recorded op) (s, []) = ((l.forEach op s).1, (l.forEach op s).2, calls)
      ∧ VisitsInOrder l.toList 1 (l.forEach op s).1 calls

theorem commandsAgree {l : CommandList} (h : l.IsWellFormed) : CommandsAgree l where
  view := fun index => by
    refine ⟨command?_eq l index, ?_⟩
    rw [CommandList.get?, isSome_getElem?, h.length_toList]
  slot := fun index => by
    have hlocate := ListEdit.locate?_toBytes h.isWellFormed index
    rw [h.length_toList, ← h.records_eq] at hlocate
    rw [commandSlot?, recordSlot?_eq, hlocate]
    rfl
  slotView := fun _ r _ => recordView_toBytes r
  each := fun op s => forEachCommand_eq l op s
  eachSlot := fun op s => by
    have hcount := l.count.toNat_lt
    obtain ⟨bytes, hbytes⟩ := ListEdit.editEach_toBytes op h.isWellFormed 1 s
    rw [h.length_toList, ← h.records_eq] at hbytes
    refine ⟨bytes, ?_⟩
    rw [forEachCommandSlot, forEachSlot_eq op (by omega), hbytes]
    rfl
  visits := fun op s => visit_recorded op l.toList 1 s []

/-- The two ways to the frames of a sequence, and to their commands. -/
structure FramesAgree (s : Sequence) : Prop where
  view : ∀ index, frame? s index = .ok (s.frame? index)
    ∧ ((s.frame? index).isSome = true ↔ index < s.frameCount.toNat)
  slot : ∀ index, frameSlot? s index = .ok ((s.frame? index).map slotOf)
  slotView : ∀ index f, s.frame? index = some f → frameView (slotOf f) = .ok f
  each : ∀ {σ : Type} (op : Nat → Frame → σ → Bool × σ) state,
    forEachFrame s op state = .ok (s.forEach op state)
  visits : ∀ {σ : Type} (op : Nat → Frame → σ → Bool × σ) state, ∃ calls,
    s.forEach (recorded op) (state, []) = ((s.forEach op state).1, (s.forEach op state).2, calls)
      ∧ VisitsInOrder s.frames 1 (s.forEach op state).1 calls
  commands : ∀ index f, s.frame? index = some f → CommandsAgree f.commands

theorem frameSlot?_eq {s : Sequence} (h : Sequence.validate s.toBytes = .ok ())
    (hs : s.backing.isMapped = false) (index : Nat) :
    frameSlot? s index = .ok ((s.frame? index).map slotOf) := by
  obtain ⟨hcount, hframes, hheader, hbytes⟩ := Sequence.frames_of_validate h
  unfold frameSlot?
  by_cases hindex : s.frameCount.toNat ≤ index
  · have hnone : s.frame? index = none := List.getElem?_eq_none (hcount ▸ hindex)
    rw [if_pos hindex, hnone]
    rfl
  · have hopen : ¬ (s.backing.isMapped = true ∨ s.toBytes.length < Sequence.headerSize) := by
      rw [hs, not_or]
      exact ⟨Bool.false_ne_true, Nat.not_lt.2 hheader⟩
    rw [if_neg hindex, if_neg hopen, frameSlotBehind?_eq, hbytes,
      Sequence.locateFrame?_toBytes hframes, Sequence.frame?]
    cases hf : s.frames[index]? with
    | none => rfl
    | some f =>
      have hread : Frame.read? (f.toBytesWith id) = some (f, []) :=
        Frame.read?_eq_some_iff.2
          ⟨hframes f (List.mem_of_getElem? hf), (List.append_nil _).symm⟩
      simp only [Option.map_some, Option.bind_some, hread]

theorem framesAgree {s : Sequence} (h : Sequence.validate s.toBytes = .ok ())
    (hs : s.backing.isMapped = false) : FramesAgree s := by
  obtain ⟨hcount, hframes, -, -⟩ := Sequence.frames_of_validate h
  exact {
    view := fun index => by
      refine ⟨frame?_eq s index, ?_⟩
      rw [Sequence.frame?, isSome_getElem?, hcount]
    slot := frameSlot?_eq h hs
    slotView := fun _ f _ => frameView_slotOf f
    each := fun op state => forEachFrame_eq s op state
    visits := fun op state => visit_recorded op s.frames 1 state []
    commands := fun _ f hf => commandsAgree (hframes f (List.mem_of_getElem? hf)) }

/-- Views and slots show the same in every image and every sequence that is valid and may be
written to: the commands of an image, the frames of a sequence, and the commands of each frame. No
walk stops the machine. -/
theorem views_and_slots_agree :
    (∀ i : Image, Image.validate i.toBytes = .ok () → i.backing.isMapped = false →
        commandsSlot? i = some i.commands ∧ CommandsAgree i.commands)
      ∧ ∀ s : Sequence, Sequence.validate s.toBytes = .ok () → s.backing.isMapped = false →
        FramesAgree s := by
  refine ⟨fun i hvalid hi => ?_, fun s hvalid hs => framesAgree hvalid hs⟩
  obtain ⟨hcommands, hlength⟩ := Image.commands_of_validate hvalid
  have hopen : ¬ (i.backing.isMapped = true ∨ i.toBytes.length < prologueSize) := by
    rw [hi, not_or]
    exact ⟨Bool.false_ne_true, Nat.not_lt.2 hlength⟩
  exact ⟨if_neg hopen, commandsAgree hcommands⟩

/-- Two commands behind a canvas: a circle, and a path of two points. -/
def circleAndPath : Bytes :=
  [1, 0, 50, 0, 40, 0, 2, 0,
    2, 0, 192, 1, 255, 4, 0, 1, 0, 10, 0, 20, 0,
    1, 0, 255, 2, 0, 1, 0, 2, 0, 0, 0, 0, 0, 5, 0, 5, 0]

/-- The second command is the last, and a visitor that stops at the first is not called again. -/
theorem views_and_slots_agree_circleAndPath :
    let i : Image := ⟨.owned circleAndPath⟩
    Image.validate i.toBytes = .ok () ∧ i.backing.isMapped = false
      ∧ (∃ r : Record, command? i.commands 1 = .ok (some r)
        ∧ commandSlot? i.commands 1 = .ok (some r.toBytes)
        ∧ recordView r.toBytes = .ok (some r) ∧ r.kind = .path ∧ r.isOpen = true)
      ∧ commandSlot? i.commands 2 = .ok none
      ∧ forEachCommand i.commands (fun place _ seen => (false, seen ++ [place])) []
        = .ok (false, [1]) := by
  intro i
  have hvalid : Image.validate i.toBytes = .ok () := by decide
  obtain ⟨-, hagree⟩ := views_and_slots_agree.1 i hvalid rfl
  obtain ⟨r, hr⟩ := Option.isSome_iff_exists.1 ((hagree.view 1).2.2 (by decide))
  have hview := (hagree.view 1).1
  have hslot := hagree.slot 1
  have hlast := hagree.slot 2
  have hnone : i.commands.get? 2 = none := by decide
  rw [hr] at hview hslot
  rw [hnone] at hlast
  refine ⟨hvalid, rfl, ⟨r, hview, hslot, hagree.slotView 1 r hr, ?_⟩, hlast,
    hagree.each (fun place _ seen => (false, seen ++ [place])) []⟩
  have hkind : (i.commands.get? 1).map (fun r => (r.kind, r.isOpen)) = some (.path, true) := by
    decide
  rw [hr] at hkind
  exact Prod.mk.inj (Option.some.inj hkind)

end DialGraphics.Machine
