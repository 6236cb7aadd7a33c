import DialGraphics.Bytes.Basic

/-!
# Words among bytes

A word of two bytes comes back as it was written. Words and parts are where they are, whatever else
is read before them.
-/

namespace DialGraphics

theorem guarded_bind {α β : Type} (p : Prop) [Decidable p] (a : α) (f : α → Option β) :
    (if p then some a else none).bind f = if p then f a else none := by
  split <;> rfl

namespace Bytes

theorem word16_ofWord16 (v : UInt16) :
    word16 (UInt8.ofNat (v.toNat % 256)) (UInt8.ofNat (v.toNat / 256)) = v :=
  (Prod.mk.inj (Option.some.inj (word16?_ofWord16_append v []))).1

theorem ofWord16_word16 (lo hi : UInt8) : ofWord16 (word16 lo hi) = [lo, hi] := by
  have hread : word16? [lo, hi] = some (word16 lo hi, []) := rfl
  rw [eq_ofWord16_append_of_word16? hread, List.append_nil]

/-- The word at a position, zero outside the bytes. -/
def wordAt (bytes : Bytes) (pos : Nat) : UInt16 :=
  word16 (bytes.getD pos 0) (bytes.getD (pos + 1) 0)

theorem wordAt_drop (bytes : Bytes) (n pos : Nat) :
    wordAt (bytes.drop n) pos = bytes.wordAt (n + pos) := by
  simp only [wordAt, List.getD_eq_getElem?_getD, List.getElem?_drop, Nat.add_assoc]

theorem wordAt_take {bytes : Bytes} {n pos : Nat} (h : pos + 1 < n) :
    wordAt (bytes.take n) pos = bytes.wordAt pos := by
  simp only [wordAt, List.getD_eq_getElem?_getD, List.getElem?_take_of_lt h,
    List.getElem?_take_of_lt (Nat.lt_of_succ_lt h)]

theorem word16?_eq (bytes : Bytes) :
    word16? bytes = if 2 ≤ bytes.length then some (bytes.wordAt 0, bytes.drop 2) else none := by
  match bytes with
  | [] => rfl
  | [_] => rfl
  | lo :: hi :: rest =>
    have hlength : 2 ≤ (lo :: hi :: rest).length := by
      rw [List.length_cons, List.length_cons]
      omega
    rw [if_pos hlength]
    rfl

theorem splitAt?_eq (n : Nat) (bytes : Bytes) :
    splitAt? n bytes = if n ≤ bytes.length then some (bytes.take n, bytes.drop n) else none := by
  simp only [splitAt?, List.length_take]
  split
  · rw [if_pos (by omega)]
  · rw [if_neg (by omega)]

end Bytes

end DialGraphics
