import DialGraphics.Proofs.Bytes.Changes
import DialGraphics.Proofs.Draw.Layout

/-!
# Changes to a stored command

Every setting has a field of its own in a record, and no field reaches the kind or the number of
points. So a change can go wrong or take effect, but the record keeps its layout.
-/

namespace DialGraphics.Draw

namespace Setting

/-- The place of the field that a setting is for: its first byte and its size. -/
def field : Setting → Nat × Nat
  | hidden _ => (1, 1)
  | strokeColor _ => (2, 1)
  | strokeWidth _ => (3, 1)
  | fillColor _ => (4, 1)
  | isOpen _ => (5, 1)
  | radius _ => (5, 2)
  | point index _ => (9 + 4 * index, 4)
  | precisePoint index _ => (9 + 4 * index, 4)

/-- Of these fields only the lowest bit is written. -/
def isSwitch : Setting → Bool
  | hidden _ | isOpen _ => true
  | _ => false

/-- The bytes are the same but for the field of a setting in the record at `start`. -/
structure ChangesField (s : Setting) (start : Nat) (old new : Bytes) : Prop where
  within : Bytes.DiffersWithin (start + s.field.1) s.field.2 old new
  otherBits : s.isSwitch = true →
    new[start + s.field.1]?.map (· &&& 0xFE) = old[start + s.field.1]?.map (· &&& 0xFE)

/-- The kind at 0 and the number of points at 7 and 8 are no part of any field. -/
theorem field_clear (s : Setting) :
    1 ≤ s.field.1 ∧ (s.field.1 + s.field.2 ≤ 7 ∨ 9 ≤ s.field.1) := by
  cases s <;> simp only [field] <;> omega

/-! ### The fields -/

theorem withLowBit_otherBits (byte : UInt8) (value : Bool) :
    withLowBit byte value &&& 0xFE = byte &&& 0xFE := by
  cases value with
  | true =>
    rw [withLowBit, if_pos rfl]
    apply UInt8.toBitVec_inj.1
    rw [UInt8.toBitVec_and, UInt8.toBitVec_or, BitVec.and_or_distrib_right]
    exact BitVec.or_zero
  | false =>
    rw [withLowBit, if_neg Bool.false_ne_true, UInt8.and_assoc, UInt8.and_self]

theorem otherBits_modify (record : Bytes) (pos : Nat) (value : Bool) :
    (record.modify pos (withLowBit · value))[pos]?.map (· &&& 0xFE)
      = record[pos]?.map (· &&& 0xFE) := by
  rw [List.getElem?_modify_eq, Option.map_eq_map, Option.map_map]
  congr 1
  funext byte
  exact withLowBit_otherBits byte value

theorem changesField_modify {s : Setting} {pos : Nat} (hs : s.field = (pos, 1)) (record : Bytes)
    (value : Bool) : s.ChangesField 0 record (record.modify pos (withLowBit · value)) := by
  refine ⟨?_, fun _ => ?_⟩
  · rw [hs, Nat.zero_add]
    exact Bytes.differsWithin_modify record pos _
  · rw [hs, Nat.zero_add]
    exact otherBits_modify record pos value

theorem writePair_cases {s : Setting} {index : Nat} (hs : s.field = (9 + 4 * index, 4))
    (hswitch : s.isSwitch = false) (record : Bytes) (x y : Int16) :
    (writePair record index x y).1 = .ok ()
        ∧ s.ChangesField 0 record (writePair record index x y).2
      ∨ ∃ e, (writePair record index x y).1 = .error e
        ∧ (writePair record index x y).2 = record := by
  simp only [writePair]
  split
  · rename_i hroom
    have hstart : recordHeaderSize + index * pointSize = 9 + 4 * index := by
      simp only [recordHeaderSize, pointSize]
      omega
    have hroom : 9 + 4 * index + (encodePair x y).length ≤ record.length := hstart ▸ hroom
    rw [hstart]
    refine Or.inl ⟨rfl, ?_, fun h => ?_⟩
    · rw [hs, Nat.zero_add]
      have hwithin := Bytes.differsWithin_overwrite hroom
      exact hwithin
    · rw [hswitch] at h
      cases h
  · exact Or.inr ⟨_, rfl, rfl⟩

variable {l : RecordLayout} {record : Bytes}

/-- Either a change takes effect, and then in its field only, or nothing happens. -/
theorem apply_cases (s : Setting) (h : IsRecord l record) :
    (s.apply record).1 = .ok () ∧ s.ChangesField 0 record (s.apply record).2
      ∨ ∃ e, (s.apply record).1 = .error e ∧ (s.apply record).2 = record := by
  have hlength := h.length
  cases s with
  | hidden value => exact Or.inl ⟨rfl, changesField_modify rfl record value⟩
  | strokeColor color =>
    exact Or.inl ⟨rfl, Bytes.differsWithin_set record 2 color.argb, fun hs => by cases hs⟩
  | strokeWidth width =>
    exact Or.inl ⟨rfl, Bytes.differsWithin_set record 3 width, fun hs => by cases hs⟩
  | fillColor color =>
    exact Or.inl ⟨rfl, Bytes.differsWithin_set record 4 color.argb, fun hs => by cases hs⟩
  | isOpen value =>
    simp only [apply]
    split
    · exact Or.inr ⟨_, rfl, rfl⟩
    · exact Or.inl ⟨rfl, changesField_modify rfl record value⟩
  | radius value =>
    simp only [apply]
    split
    · have hroom : 5 + (Bytes.ofWord16 value).length ≤ record.length := by
        rw [Bytes.length_ofWord16]
        omega
      exact Or.inl ⟨rfl, Bytes.differsWithin_overwrite hroom, fun hs => by cases hs⟩
    · exact Or.inr ⟨_, rfl, rfl⟩
  | point index p =>
    simp only [apply]
    split
    · exact writePair_cases rfl rfl record _ _
    · exact writePair_cases rfl rfl record _ _
  | precisePoint index p =>
    simp only [apply]
    split
    · exact writePair_cases rfl rfl record _ _
    · exact writePair_cases rfl rfl record _ _

theorem ChangesField.append {s : Setting} {start : Nat} {old new : Bytes}
    (h : s.ChangesField start old new) (front back : Bytes) :
    s.ChangesField (front.length + start) (front ++ old ++ back) (front ++ new ++ back) := by
  have hplace : front.length + start + s.field.1 = front.length + (start + s.field.1) :=
    Nat.add_assoc ..
  refine ⟨?_, fun hs => ?_⟩
  · rw [hplace]
    exact h.within.append front back
  · have hbehind : front.length ≤ front.length + (start + s.field.1) := Nat.le_add_right ..
    rw [hplace, List.append_assoc, List.append_assoc, List.getElem?_append_right hbehind,
      List.getElem?_append_right hbehind, Nat.add_sub_cancel_left, List.getElem?_append,
      List.getElem?_append, h.within.length]
    split
    · exact h.otherBits hs
    · rfl

/-! ### The layout stays -/

theorem ChangesField.isRecord {s : Setting} {new : Bytes} (h : s.ChangesField 0 record new)
    (hrecord : IsRecord l record) : IsRecord l new := by
  have hwithin := h.within
  rw [Nat.zero_add] at hwithin
  obtain ⟨hfirst, hpoints⟩ := s.field_clear
  obtain ⟨n0, n1, hn0, hn1, hcount⟩ := hrecord.points
  refine ⟨?_, ⟨n0, n1, ?_, ?_, hcount⟩, hrecord.suits, ?_⟩
  · rw [hwithin.outside 0 (Or.inl hfirst)]
    exact hrecord.kind
  · rw [hwithin.outside 7 (by omega)]
    exact hn0
  · rw [hwithin.outside 8 (by omega)]
    exact hn1
  · rw [hwithin.length]
    exact hrecord.length

theorem isRecord_apply (s : Setting) (h : IsRecord l record) : IsRecord l (s.apply record).2 := by
  rcases s.apply_cases h with ⟨-, hfield⟩ | ⟨e, -, hsame⟩
  · exact hfield.isRecord h
  · rw [hsame]
    exact h

theorem isRecord_applyAll (settings : List Setting) (h : IsRecord l record) :
    IsRecord l (applyAll settings record).2 := by
  induction settings generalizing record with
  | nil => exact h
  | cons s settings ih => exact ih (s.isRecord_apply h)

theorem applyAll_append (first second : List Setting) (record : Bytes) :
    (applyAll (first ++ second) record).2 = (applyAll second (applyAll first record).2).2 := by
  induction first generalizing record with
  | nil => rfl
  | cons s first ih => exact ih (s.apply record).2

end Setting

end DialGraphics.Draw
