import DialGraphics.Proofs.Draw.ContainerEdits
import DialGraphics.Proofs.Draw.RoundTrip

/-!
# Calls and slots in order

What is visited is visited in order, with its place, and the first answer to stop is the last one.
The slots of a list are where its records are: those that are reached one by one, and those that are
reached one after the other, which are visited as the records are.
-/

namespace DialGraphics.Draw

/-! ### Calls -/

/-- A call of a visitor: the place and the item, and whether it said to go on. -/
structure Visited (α : Type) where
  place : Nat
  item : α
  goesOn : Bool

/-- Calls with the first items of a list. Only the last one may say to stop; if it does not, there
are no more items. -/
structure VisitsInOrder {α : Type} (items : List α) (position : Nat) (done : Bool)
    (calls : List (Visited α)) : Prop where
  item : ∀ k c, calls[k]? = some c → c.place = position + k ∧ items[k]? = some c.item
  goesOn : ∀ k c, calls[k]? = some c → k + 1 < calls.length → c.goesOn = true
  done_iff : done = true ↔ ∀ c ∈ calls, c.goesOn = true
  all : done = true → calls.length = items.length

section

variable {α σ : Type}

/-- A visitor that also writes down how it is called. -/
def recorded (op : Nat → α → σ → Bool × σ) (place : Nat) (x : α) (s : σ × List (Visited α)) :
    Bool × σ × List (Visited α) :=
  let (goesOn, next) := op place x s.1
  (goesOn, next, s.2 ++ [⟨place, x, goesOn⟩])

theorem VisitsInOrder.nil (position : Nat) : VisitsInOrder ([] : List α) position true [] where
  item := fun k c h => by cases h
  goesOn := fun k c h => by cases h
  done_iff := iff_of_true rfl fun c hc => absurd hc List.not_mem_nil
  all := fun _ => rfl

theorem VisitsInOrder.stop (x : α) (items : List α) (position : Nat) :
    VisitsInOrder (x :: items) position false [⟨position, x, false⟩] where
  item := fun k c h => by
    cases k with
    | zero =>
      cases h
      exact ⟨rfl, rfl⟩
    | succ k => cases h
  goesOn := fun k c _ hk => by
    simp only [List.length_singleton] at hk
    omega
  done_iff := iff_of_false Bool.false_ne_true
    fun h => Bool.false_ne_true (h _ (List.mem_singleton_self _))
  all := fun h => absurd h Bool.false_ne_true

theorem VisitsInOrder.cons {items : List α} {position : Nat} {done : Bool}
    {calls : List (Visited α)} (h : VisitsInOrder items (position + 1) done calls) (x : α) :
    VisitsInOrder (x :: items) position done (⟨position, x, true⟩ :: calls) where
  item := fun k c hc => by
    cases k with
    | zero =>
      cases hc
      exact ⟨rfl, rfl⟩
    | succ k =>
      obtain ⟨hplace, hitem⟩ := h.item k c hc
      exact ⟨by omega, hitem⟩
  goesOn := fun k c hc hk => by
    cases k with
    | zero =>
      cases hc
      rfl
    | succ k =>
      rw [List.length_cons] at hk
      exact h.goesOn k c hc (by omega)
  done_iff := by
    rw [h.done_iff, List.forall_mem_cons]
    exact ⟨fun hall => ⟨rfl, hall⟩, fun hall => hall.2⟩
  all := fun hdone => by rw [List.length_cons, List.length_cons, h.all hdone]

theorem visit_recorded (op : Nat → α → σ → Bool × σ) (items : List α) (position : Nat) (s : σ)
    (before : List (Visited α)) :
    ∃ calls, visit (recorded op) position items (s, before)
        = ((visit op position items s).1, (visit op position items s).2, before ++ calls)
      ∧ VisitsInOrder items position (visit op position items s).1 calls := by
  induction items generalizing position s before with
  | nil => exact ⟨[], by rw [List.append_nil]; rfl, .nil position⟩
  | cons x items ih =>
    rcases hop : op position x s with ⟨goesOn, next⟩
    cases goesOn with
    | false =>
      refine ⟨[⟨position, x, false⟩], ?_, ?_⟩
      · simp only [visit, recorded, hop]
      · simp only [visit, hop]
        exact .stop x items position
    | true =>
      obtain ⟨calls, hcalls, horder⟩ := ih (position + 1) next (before ++ [⟨position, x, true⟩])
      refine ⟨⟨position, x, true⟩ :: calls, ?_, ?_⟩
      · simp only [visit, recorded, hop]
        rw [hcalls, List.append_assoc, List.singleton_append]
      · simp only [visit, hop]
        exact horder.cons x

end

/-! ### What is written has a layout -/

variable {records : List Record}

theorem Record.IsWellFormed.isRecord {r : Record} (h : r.IsWellFormed) :
    IsRecord r.layout r.toBytes := by
  have hread := Record.read?_toBytes_append h []
  obtain ⟨record, hrecord, his⟩ := exists_record_of_read? hread
  rw [List.append_nil, List.append_nil] at hrecord
  rwa [hrecord]

theorem forall₂_isRecord (h : ∀ r ∈ records, r.IsWellFormed) :
    List.Forall₂ IsRecord (records.map Record.layout) (records.map Record.toBytes) := by
  rw [List.forall₂_map_left_iff, List.forall₂_map_right_iff, List.forall₂_same]
  exact fun r hr => (h r hr).isRecord

theorem CommandList.IsWellFormed.isCommandList {l : CommandList} (h : l.IsWellFormed) :
    IsCommandList (l.toList.map Record.layout) (l.toBytesWith id) := by
  have hcount := l.count.toNat_lt
  refine ⟨_, _, _, rfl, ?_, forall₂_isRecord h.isWellFormed⟩
  rw [List.length_map, h.length_toList, UInt8.toNat_ofNat', UInt8.toNat_ofNat']
  omega

theorem Frame.forall₂_isFrame {frames : List Frame} (h : ∀ f ∈ frames, f.commands.IsWellFormed) :
    List.Forall₂ IsFrame (frames.map fun f => f.commands.toList.map Record.layout)
      (frames.map (toBytesWith id)) := by
  rw [List.forall₂_map_left_iff, List.forall₂_map_right_iff, List.forall₂_same]
  exact fun f hf => ⟨_, _, _, rfl, (h f hf).isCommandList⟩

/-! ### Slots -/

theorem ListEdit.locate?_toBytes (h : ∀ r ∈ records, r.IsWellFormed) (i : Nat) :
    (locate? records.length i (records.map Record.toBytes).flatten).map (·.2.1)
      = records[i]?.map Record.toBytes := by
  have hlocate := locate?_flatten (forall₂_isRecord h) i
  rw [List.length_map] at hlocate
  rw [hlocate, Option.map_map, List.getElem?_map]
  exact Option.map_id'

theorem Sequence.locateFrame?_toBytes {frames : List Frame}
    (h : ∀ f ∈ frames, f.commands.IsWellFormed) (i : Nat) :
    (locateFrame? i (frames.map (Frame.toBytesWith id)).flatten).map (·.2.1)
      = frames[i]?.map (Frame.toBytesWith id) := by
  rw [locateFrame?_flatten (Frame.forall₂_isFrame h), Option.map_map, List.getElem?_map]
  exact Option.map_id'

/-- A visitor of slots, as one of records. -/
def onSlot {σ : Type} (op : Nat → Bytes → σ → Bool × Bytes × σ) (place : Nat) (r : Record)
    (s : σ) : Bool × σ :=
  let (goesOn, _, next) := op place r.toBytes s
  (goesOn, next)

theorem ListEdit.editEach_toBytes {σ : Type} (op : Nat → Bytes → σ → Bool × Bytes × σ)
    (h : ∀ r ∈ records, r.IsWellFormed) (position : Nat) (s : σ) :
    ∃ bytes, editEach op records.length position (records.map Record.toBytes).flatten s
      = ((visit (onSlot op) position records s).1, bytes,
          (visit (onSlot op) position records s).2) := by
  induction records generalizing position s with
  | nil => exact ⟨_, rfl⟩
  | cons r records ih =>
    obtain ⟨hr, hrecords⟩ := List.forall_mem_cons.1 h
    rw [List.map_cons, List.flatten_cons, List.length_cons, editEach,
      hr.isRecord.recordSize?_append]
    simp only [List.take_left, List.drop_left, visit, onSlot]
    rcases op position r.toBytes s with ⟨goesOn, slot, next⟩
    cases goesOn with
    | false => exact ⟨_, rfl⟩
    | true =>
      obtain ⟨bytes, hbytes⟩ := ih hrecords (position + 1) next
      exact ⟨slot ++ bytes, by simp only [hbytes]⟩

/-! ### Validated containers -/

theorem Image.commands_of_validate {i : Image} (h : validate i.toBytes = .ok ()) :
    i.commands.IsWellFormed ∧ prologueSize ≤ i.toBytes.length := by
  have hbytes : ofBytes i.toBytes = .ok ⟨.owned i.toBytes⟩ := by
    rw [ofBytes, h]
    rfl
  obtain ⟨-, hcommands, version, reserved, canvas, hopens⟩ := opens_of_ofBytes hbytes
  refine ⟨hcommands, ?_⟩
  have hlength := congrArg List.length hopens.toBytes_eq
  rw [List.length_append] at hlength
  exact Nat.le.intro hlength.symm

theorem Sequence.frames_of_validate {s : Sequence} (h : validate s.toBytes = .ok ()) :
    s.frames.length = s.frameCount.toNat ∧ (∀ f ∈ s.frames, f.commands.IsWellFormed)
      ∧ headerSize ≤ s.toBytes.length
      ∧ s.toBytes.drop headerSize = (s.frames.map (Frame.toBytesWith id)).flatten := by
  have hbytes : ofBytes s.toBytes = .ok ⟨.owned s.toBytes⟩ := by
    rw [ofBytes, h]
    rfl
  obtain ⟨-, hframes, hcount, version, reserved, canvas, hopens⟩ := opens_of_ofBytes hbytes
  have hwhole : s.toBytes = [version, reserved] ++ encodePair canvas.w canvas.h
      ++ (Bytes.ofWord16 s.playCount ++ Bytes.ofWord16 s.frameCount
        ++ (s.frames.map (Frame.toBytesWith id)).flatten) := hopens.toBytes_eq
  refine ⟨hcount.symm, hframes, ?_, ?_⟩
  · have hlength := congrArg List.length hwhole
    rw [hlength]
    simp only [List.length_append, List.length_cons, List.length_nil, encodePair,
      Bytes.length_ofWord16, headerSize]
    omega
  · exact congrArg (List.drop headerSize) hwhole

end DialGraphics.Draw
