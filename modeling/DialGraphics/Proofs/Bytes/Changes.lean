import DialGraphics.Bytes.Basic

/-!
# Where bytes are changed

Bytes that are changed in place keep their number. All but a few of them stay as they are: those
outside the stretch that is written.
-/

namespace DialGraphics.Bytes

/-- The bytes are the same but for at most `n` of them from `start` on. -/
structure DiffersWithin (start n : Nat) (old new : Bytes) : Prop where
  length : new.length = old.length
  outside : ∀ pos, pos < start ∨ start + n ≤ pos → new[pos]? = old[pos]?

variable {start n : Nat} {old new bytes : Bytes}

theorem differsWithin_modify (bytes : Bytes) (pos : Nat) (change : UInt8 → UInt8) :
    DiffersWithin pos 1 bytes (bytes.modify pos change) := by
  refine ⟨List.length_modify .., ?_⟩
  intro i hi
  have hne : pos ≠ i := by omega
  rw [List.getElem?_modify_ne change bytes hne]

theorem differsWithin_set (bytes : Bytes) (pos : Nat) (value : UInt8) :
    DiffersWithin pos 1 bytes (bytes.set pos value) := by
  refine ⟨List.length_set, ?_⟩
  intro i hi
  have hne : pos ≠ i := by omega
  rw [List.getElem?_set_ne hne]

theorem differsWithin_overwrite (h : start + new.length ≤ bytes.length) :
    DiffersWithin start new.length bytes (bytes.overwrite start new) := by
  refine ⟨length_overwrite h, ?_⟩
  intro i hi
  have hfront : (bytes.take start).length = start := List.length_take_of_le (by omega)
  unfold overwrite
  rcases hi with hbefore | hbehind
  · rw [List.append_assoc, List.getElem?_append_left (by omega), List.getElem?_take_of_lt hbefore]
  · have hlength : (bytes.take start ++ new).length = start + new.length := by
      rw [List.length_append, hfront]
    rw [List.getElem?_append_right (by omega), List.getElem?_drop, hlength]
    congr 1
    omega

theorem DiffersWithin.append (h : DiffersWithin start n old new) (front back : Bytes) :
    DiffersWithin (front.length + start) n (front ++ old ++ back) (front ++ new ++ back) := by
  refine ⟨?_, ?_⟩
  · simp only [List.length_append, h.length]
  · intro pos hpos
    rw [List.append_assoc, List.append_assoc]
    rcases Nat.lt_or_ge pos front.length with hfront | hbehind
    · rw [List.getElem?_append_left hfront, List.getElem?_append_left hfront]
    · rw [List.getElem?_append_right hbehind, List.getElem?_append_right hbehind,
        List.getElem?_append, List.getElem?_append, h.length, h.outside _ (by omega)]

end DialGraphics.Bytes
