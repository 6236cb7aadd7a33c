import DialGraphics.Machine.Loading
import DialGraphics.Proofs.Machine.HeapCopy
import DialGraphics.Proofs.Resource.Loading

/-!
# Ranges in place and copied

A view of a range is refused where the range ends behind the bytes, a copy of it where fewer bytes
are read than asked for. That is the same, but for a range of no bytes that begins behind the end:
all of its bytes can be read.
-/

namespace DialGraphics.Machine

/-- Whatever a device says about a resource is about these bytes, and a buffer is filled with all of
them that exist and fit. -/
structure Device.Serves (d : Device) (key : ResourceKey) (bytes : Bytes) : Prop where
  readOnly : ∀ offered, d.readOnly key = some offered → offered = bytes
  fill : ∀ offset buffer, d.fill key offset buffer
    = (((bytes.drop offset).take buffer.length).length,
      buffer.overwrite 0 ((bytes.drop offset).take buffer.length))

theorem Device.serves_ofStore {s : Store} {key : ResourceKey} {bytes : Bytes}
    (h : s.Describes key bytes) : (Device.ofStore s).Serves key bytes := by
  refine ⟨h.readOnly, fun offset buffer => ?_⟩
  simp only [ofStore]
  rw [h.read]

/-! ### Where a range ends -/

theorem between?_eq {bytes : Bytes} (hbytes : bytes.length < 2 ^ 64) (offset length : Nat) :
    (sum? 64 offset length).bind (between? bytes offset) = bytes.slice? offset length := by
  rw [Bytes.slice?_eq]
  by_cases hsum : offset + length < 2 ^ 64
  · rw [sum?_eq hsum, Option.bind_some, between?, List.drop_take, Nat.add_sub_cancel_left]
    split
    · rename_i hinside
      rw [if_pos hinside.2]
    · rename_i hbehind
      rw [if_neg fun hend => hbehind ⟨Nat.le_add_right .., hend⟩]
  · rw [show sum? 64 offset length = none from if_neg hsum, Option.bind_none, if_neg (by omega)]

/-- A range is read in full if it ends in the bytes, or has none. -/
theorem length_range_eq_iff {bytes : Bytes} {offset length : Nat} :
    ((bytes.drop offset).take length).length = length
      ↔ offset + length ≤ bytes.length ∨ length = 0 := by
  rw [List.length_take, List.length_drop]
  omega

namespace Loader

variable {l : Loader} {key : ResourceKey} {bytes : Bytes}

/-- A buffer for so many bytes, and for those of the alignment, can be had. -/
def HasRoomFor (l : Loader) (length : Nat) (pad : Bool) : Prop :=
  ∃ capacity, sum? 64 length (if pad then alignmentPad else 0) = some capacity
    ∧ l.hasRoom capacity = true

/-! ### In place -/

theorem range?_offered {all : Bytes} (hoffered : l.mappable? key = some all)
    (hall : all.length < 2 ^ 64) (offset length : Nat) (pad : Bool) :
    l.range? key offset length pad = .ok ((all.slice? offset length).map (.mapped key)) := by
  unfold range? fetch
  rw [hoffered]
  simp only
  rw [between?_eq hall]
  cases all.slice? offset length with
  | none => rfl
  | some part => rfl

theorem mappable?_eq (hdevice : l.device.Serves key bytes) (hmapped : l.mappable? key ≠ none) :
    l.mappable? key = some bytes := by
  obtain ⟨offered, hoffered⟩ := Option.ne_none_iff_exists'.1 hmapped
  have hreadOnly := hoffered
  unfold mappable? at hreadOnly
  split at hreadOnly
  · rw [hoffered, hdevice.readOnly offered hreadOnly]
  · cases hreadOnly

/-! ### Copied -/

theorem range?_noRoom (hcopied : l.mappable? key = none) {length : Nat} {pad : Bool}
    (hroom : ¬ l.HasRoomFor length pad) (offset : Nat) :
    l.range? key offset length pad = .ok none := by
  unfold range? fetch
  rw [hcopied]
  simp only [copyRange]
  cases hcapacity : sum? 64 length (if pad then alignmentPad else 0) with
  | none => rfl
  | some capacity =>
    have hfull : ¬ l.hasRoom capacity = true := fun h => hroom ⟨capacity, hcapacity, h⟩
    rw [orFail_some, settled_ok_bind, if_neg hfull]
    rfl

/-- The bytes that are read lie at the front of the buffer, if they are as many as asked for. -/
theorem range?_read (hcopied : l.mappable? key = none) {length : Nat} {pad : Bool}
    (hroom : l.HasRoomFor length pad) {offset : Nat} {read : Bytes}
    (hfill : l.device.fill key offset (List.replicate length 0)
      = (read.length, Bytes.overwrite (List.replicate length 0) 0 read)) :
    l.range? key offset length pad
      = .ok (if read.length = length then
        some (.heap (.ofHeap (.ofPadded l.heapBase read (if pad then alignmentPad else 0))))
        else none) := by
  obtain ⟨capacity, hcapacity, hfits⟩ := hroom
  unfold range? fetch
  rw [hcopied]
  simp only [copyRange]
  rw [hcapacity, orFail_some, settled_ok_bind, if_pos hfits]
  generalize (if pad then alignmentPad else 0) = extra at hcapacity ⊢
  have hsum := eq_of_sum? hcapacity
  have hsplit : splitAt (List.replicate capacity 0) length
      = .ok (List.replicate length 0, List.replicate extra 0) := by
    rw [splitAt_eq (by rw [List.length_replicate]; omega), List.take_replicate,
      List.drop_replicate, hsum, Nat.add_sub_cancel_left, Nat.min_eq_left (by omega)]
  rw [hsplit, lift_ok, settled_ok_bind]
  simp only [hfill]
  by_cases hread : read.length = length
  · have hfront : Bytes.overwrite (List.replicate length 0) 0 read = read := by
      rw [Bytes.overwrite, Nat.zero_add, hread, List.take_zero, List.nil_append,
        List.drop_of_length_le (Nat.le_of_eq List.length_replicate), List.append_nil]
    rw [if_pos hread, if_pos hread, hfront, ← hread]
    rfl
  · rw [if_neg hread, if_neg hread]
    rfl

theorem range?_copied (hdevice : l.device.Serves key bytes) (hcopied : l.mappable? key = none)
    {length : Nat} {pad : Bool} (hroom : l.HasRoomFor length pad) (offset : Nat) :
    l.range? key offset length pad
      = .ok (if offset + length ≤ bytes.length ∨ length = 0 then
        some (.heap (.ofHeap (.ofPadded l.heapBase ((bytes.drop offset).take length)
          (if pad then alignmentPad else 0))))
        else none) := by
  have hfill := hdevice.fill offset (List.replicate length 0)
  rw [List.length_replicate] at hfill
  rw [range?_read hcopied hroom hfill]
  simp only [length_range_eq_iff]

/-! ### Maps -/

theorem hasRoomFor_ofMap_iff {m : ResourceMap} {length : Nat} {pad : Bool} :
    (ofMap m).HasRoomFor length pad
      ↔ ¬ allocationLimit ≤ length + (if pad then alignmentPad else 0) := by
  rw [Nat.not_le]
  constructor
  · rintro ⟨capacity, hcapacity, hfits⟩
    rw [← eq_of_sum? hcapacity]
    exact of_decide_eq_true hfits
  · intro hsmall
    have hlimit : allocationLimit < 2 ^ 64 := by decide
    exact ⟨_, sum?_eq (hsmall.trans hlimit), decide_eq_true hsmall⟩

/-- A map whose copies go through buffers gives the ranges of the map. -/
theorem range?_ofMap {m : ResourceMap} {key : ResourceKey}
    (hoffered : ∀ all, m.mappable? key = some all → all.length < 2 ^ 64)
    (offset length : Nat) (pad : Bool) :
    (ofMap m).range? key offset length pad
      = .ok ((m.range? key offset length pad).1.map Handle.ofResource) := by
  unfold ResourceMap.range? ResourceMap.fetch
  cases hmapped : m.mappable? key with
  | some all =>
    rw [range?_offered (l := ofMap m) hmapped (hoffered all hmapped)]
    simp only
    cases all.slice? offset length with
    | none => rfl
    | some part => rfl
  | none =>
    have hfill : (ofMap m).device.fill key offset (List.replicate length 0)
        = ((m.store.read key offset length).length,
          Bytes.overwrite (List.replicate length 0) 0 (m.store.read key offset length)) := by
      simp only [ofMap, Device.ofStore, List.length_replicate]
    simp only [ResourceMap.copyRange]
    by_cases hroom : (ofMap m).HasRoomFor length pad
    · rw [range?_read (l := ofMap m) hmapped hroom hfill,
        if_neg (hasRoomFor_ofMap_iff.1 hroom)]
      by_cases hread : (m.store.read key offset length).length = length
      · rw [if_pos hread, if_pos hread]
        rfl
      · rw [if_neg hread, if_neg hread]
        rfl
    · have hlarge := not_not.1 (mt hasRoomFor_ofMap_iff.2 hroom)
      rw [range?_noRoom (l := ofMap m) hmapped hroom, if_pos hlarge]
      rfl

/-! ### The two ways -/

theorem toBytes_ofPadded {base extra : Nat} {part : Bytes} (hpart : part.length < 2 ^ 64) :
    (Handle.heap (.ofHeap (.ofPadded base part extra))).toBytes = .ok part := by
  have hstop : (HeapBytes.ofPadded base part extra).start
      + (HeapBytes.ofPadded base part extra).length < 2 ^ 64 := by
    simpa only [HeapBytes.ofPadded, Nat.zero_add] using hpart
  exact (HeapCopy.toBytes_eq hstop).trans (congrArg _ (HeapBytes.toBytes_ofPadded ..))

theorem range_inPlace (hbytes : bytes.length < 2 ^ 64) (hdevice : l.device.Serves key bytes)
    (hmapped : l.mappable? key ≠ none) (offset length : Nat) (pad : Bool) :
    ∃ view, l.range? key offset length pad = .ok view
      ∧ (view.isSome = true ↔ offset + length ≤ bytes.length)
      ∧ ∀ r, view = some r → r.toBytes = .ok ((bytes.drop offset).take length) := by
  refine ⟨_, range?_offered (mappable?_eq hdevice hmapped) hbytes offset length pad, ?_, ?_⟩
  · rw [Bytes.slice?_eq, Option.isSome_map]
    split
    · rename_i hend
      exact iff_of_true rfl hend
    · rename_i hend
      exact iff_of_false Bool.false_ne_true hend
  · intro r hr
    rw [Bytes.slice?_eq] at hr
    split at hr
    · cases hr
      rfl
    · cases hr

theorem range_copied (hbytes : bytes.length < 2 ^ 64) (hdevice : l.device.Serves key bytes)
    (hcopied : l.mappable? key = none) (offset length : Nat) (pad : Bool) :
    ∃ copy, l.range? key offset length pad = .ok copy
      ∧ (copy.isSome = true
        ↔ l.HasRoomFor length pad ∧ (offset + length ≤ bytes.length ∨ length = 0))
      ∧ ∀ r, copy = some r → r.toBytes = .ok ((bytes.drop offset).take length) := by
  by_cases hroom : l.HasRoomFor length pad
  · by_cases hread : offset + length ≤ bytes.length ∨ length = 0
    · refine ⟨_, range?_copied hdevice hcopied hroom offset, ?_, ?_⟩
      · rw [if_pos hread]
        exact iff_of_true rfl ⟨hroom, hread⟩
      · rw [if_pos hread]
        rintro r ⟨⟩
        apply toBytes_ofPadded
        rw [List.length_take, List.length_drop]
        omega
    · refine ⟨none, ?_, ?_, fun r hr => by cases hr⟩
      · rw [range?_copied hdevice hcopied hroom, if_neg hread]
      · exact iff_of_false Bool.false_ne_true fun h => hread h.2
  · refine ⟨none, range?_noRoom hcopied hroom offset, ?_, fun r hr => by cases hr⟩
    exact iff_of_false Bool.false_ne_true fun h => hroom h.1

/-- A range in place and the same range copied. What is in place is given if the range ends in the
bytes. What is copied is given if it can be held, and the range ends in the bytes or has none. Both
hold the bytes of the range. So the two only differ where there is no room for a copy, or where a
range of no bytes begins behind the end. -/
theorem range_inPlace_and_copied {here there : Loader} {key key' : ResourceKey} {bytes : Bytes}
    (hbytes : bytes.length < 2 ^ 64)
    (hhere : here.device.Serves key bytes) (hmapped : here.mappable? key ≠ none)
    (hthere : there.device.Serves key' bytes) (hcopied : there.mappable? key' = none)
    (offset length : Nat) (pad : Bool) :
    ∃ view copy, here.range? key offset length pad = .ok view
      ∧ there.range? key' offset length pad = .ok copy
      ∧ (view.isSome = true ↔ offset + length ≤ bytes.length)
      ∧ (copy.isSome = true
        ↔ there.HasRoomFor length pad ∧ (offset + length ≤ bytes.length ∨ length = 0))
      ∧ (∀ r, view = some r ∨ copy = some r → r.toBytes = .ok ((bytes.drop offset).take length))
      ∧ (there.HasRoomFor length pad → length ≠ 0 ∨ offset ≤ bytes.length →
        (view.isSome = true ↔ copy.isSome = true)) := by
  obtain ⟨view, hview, hgiven, hbytesView⟩ := range_inPlace hbytes hhere hmapped offset length pad
  obtain ⟨copy, hcopy, hmade, hbytesCopy⟩ := range_copied hbytes hthere hcopied offset length pad
  refine ⟨view, copy, hview, hcopy, hgiven, hmade, ?_, fun hroom hplain => ?_⟩
  · rintro r (hr | hr)
    · exact hbytesView r hr
    · exact hbytesCopy r hr
  · rw [hgiven, hmade]
    constructor
    · exact fun hend => ⟨hroom, Or.inl hend⟩
    · rintro ⟨-, hread⟩
      omega

/-- The last two of three bytes. -/
theorem range_inPlace_and_copied_lastTwo :
    let store := Store.ofCatalog [⟨⟨0, 1⟩, [7, 8, 9], true, 3, 0⟩]
    let here := ofMap { store }
    let there := ofMap { store, mapping := false }
    here.device.Serves ⟨0, 1⟩ [7, 8, 9] ∧ here.mappable? ⟨0, 1⟩ ≠ none
      ∧ there.mappable? ⟨0, 1⟩ = none ∧ there.HasRoomFor 2 true
      ∧ ∃ view copy, here.range? ⟨0, 1⟩ 1 2 true = .ok (some view)
        ∧ there.range? ⟨0, 1⟩ 1 2 true = .ok (some copy)
        ∧ view.toBytes = .ok [8, 9] ∧ copy.toBytes = .ok [8, 9] := by
  intro store here there
  have hserves : (Device.ofStore store).Serves ⟨0, 1⟩ [7, 8, 9] :=
    Device.serves_ofStore (Store.describes_ofCatalog ..)
  have hhere : here.device.Serves ⟨0, 1⟩ [7, 8, 9] := hserves
  have hthere : there.device.Serves ⟨0, 1⟩ [7, 8, 9] := hserves
  have hmapped : here.mappable? ⟨0, 1⟩ ≠ none := Option.some_ne_none [7, 8, 9]
  have hcopied : there.mappable? ⟨0, 1⟩ = none := rfl
  have hroom : there.HasRoomFor 2 true := hasRoomFor_ofMap_iff.2 (by decide)
  obtain ⟨view, copy, hview, hcopy, hgiven, hmade, hbytes, -⟩ :=
    range_inPlace_and_copied (by decide) hhere hmapped hthere hcopied 1 2 true
  obtain ⟨v, rfl⟩ := Option.isSome_iff_exists.1 (hgiven.2 (by decide))
  obtain ⟨c, rfl⟩ := Option.isSome_iff_exists.1 (hmade.2 ⟨hroom, by decide⟩)
  exact ⟨hhere, hmapped, hcopied, hroom, v, c, hview, hcopy, hbytes v (Or.inl rfl),
    hbytes c (Or.inr rfl)⟩

/-- A range of no bytes that begins behind the end is refused in place, and copied. -/
theorem range_behind_end :
    let store := Store.ofCatalog [⟨⟨0, 1⟩, [1, 2], true, 2, 0⟩]
    let here : ResourceMap := { store }
    let there : ResourceMap := { store, mapping := false }
    (Device.ofStore store).Serves ⟨0, 1⟩ [1, 2] ∧ (ofMap there).HasRoomFor 0 false
      ∧ ¬ 3 + 0 ≤ ([1, 2] : Bytes).length
      ∧ (ofMap here).range? ⟨0, 1⟩ 3 0 false = .ok none
      ∧ (here.range? ⟨0, 1⟩ 3 0 false).1 = none
      ∧ (ofMap there).range? ⟨0, 1⟩ 3 0 false = .ok (some (.heap ⟨0, [], 0, 0⟩))
      ∧ (there.range? ⟨0, 1⟩ 3 0 false).1 = some (.heap (.ofPadded 0 [] 0)) := by
  intro store here there
  refine ⟨Device.serves_ofStore (Store.describes_ofCatalog ..), ?_, by decide, rfl, rfl, rfl, rfl⟩
  exact hasRoomFor_ofMap_iff.2 (by decide)

end Loader

end DialGraphics.Machine
