/-!
# Runs of bytes

Bytes are lists, first byte first. Readers take a value off the front and return it with the rest;
`none` always means that too few bytes are left. `overwrite` is the one way to change bytes in
place, and it never changes their number.
-/

namespace DialGraphics

abbrev Bytes := List UInt8

namespace Bytes

/-! ### Cutting -/

def splitAt? (n : Nat) (bytes : Bytes) : Option (Bytes × Bytes) :=
  let head := bytes.take n
  if head.length = n then some (head, bytes.drop n) else none

def slice? (start n : Nat) (bytes : Bytes) : Option Bytes :=
  let part := (bytes.drop start).take n
  if start ≤ bytes.length ∧ part.length = n then some part else none

theorem splitAt?_eq_some_iff {n : Nat} {bytes head rest : Bytes} :
    splitAt? n bytes = some (head, rest) ↔ head.length = n ∧ bytes = head ++ rest := by
  constructor
  · intro h
    simp only [splitAt?] at h
    split at h
    · rename_i hn
      cases h
      exact ⟨hn, (List.take_append_drop n bytes).symm⟩
    · cases h
  · rintro ⟨rfl, rfl⟩
    simp [splitAt?]

theorem slice?_eq {start n : Nat} {bytes : Bytes} :
    slice? start n bytes
      = if start + n ≤ bytes.length then some ((bytes.drop start).take n) else none := by
  simp only [slice?, List.length_take, List.length_drop]
  split <;> split <;> first | rfl | (exfalso; omega)

/-- Exactly `n` bytes: cut off at the end, or filled up with zeros. -/
def fit (n : Nat) (bytes : Bytes) : Bytes :=
  let head := bytes.take n
  head ++ List.replicate (n - head.length) 0

@[simp] theorem length_fit (n : Nat) (bytes : Bytes) : (fit n bytes).length = n := by
  simp only [fit, List.length_append, List.length_replicate, List.length_take]
  omega

/-! ### Words -/

def word16 (lo hi : UInt8) : UInt16 := UInt16.ofNat (lo.toNat + 256 * hi.toNat)

def ofWord16 (v : UInt16) : Bytes := [UInt8.ofNat (v.toNat % 256), UInt8.ofNat (v.toNat / 256)]

def word16? : Bytes → Option (UInt16 × Bytes)
  | lo :: hi :: rest => some (word16 lo hi, rest)
  | _ => none

def word32? : Bytes → Option (Nat × Bytes)
  | a :: b :: c :: d :: rest =>
    some (a.toNat + 256 * (b.toNat + 256 * (c.toNat + 256 * d.toNat)), rest)
  | _ => none

def ofWord32 (v : Nat) : Bytes :=
  [UInt8.ofNat (v % 256), UInt8.ofNat (v / 256 % 256), UInt8.ofNat (v / 65536 % 256),
    UInt8.ofNat (v / 16777216 % 256)]

def bigWord16? : Bytes → Option (Nat × Bytes)
  | hi :: lo :: rest => some (256 * hi.toNat + lo.toNat, rest)
  | _ => none

def ofBigWord16 (v : Nat) : Bytes := [UInt8.ofNat (v / 256 % 256), UInt8.ofNat (v % 256)]

def bigWord32? : Bytes → Option (Nat × Bytes)
  | a :: b :: c :: d :: rest =>
    some (256 * (256 * (256 * a.toNat + b.toNat) + c.toNat) + d.toNat, rest)
  | _ => none

def ofBigWord32 (v : Nat) : Bytes :=
  [UInt8.ofNat (v / 16777216 % 256), UInt8.ofNat (v / 65536 % 256), UInt8.ofNat (v / 256 % 256),
    UInt8.ofNat (v % 256)]

@[simp] theorem length_ofWord16 (v : UInt16) : (ofWord16 v).length = 2 := rfl
@[simp] theorem length_ofWord32 (v : Nat) : (ofWord32 v).length = 4 := rfl
@[simp] theorem length_ofBigWord16 (v : Nat) : (ofBigWord16 v).length = 2 := rfl
@[simp] theorem length_ofBigWord32 (v : Nat) : (ofBigWord32 v).length = 4 := rfl

theorem word16?_ofWord16_append (v : UInt16) (rest : Bytes) :
    word16? (ofWord16 v ++ rest) = some (v, rest) := by
  have h := v.toNat_lt
  simp only [ofWord16, word16?, word16, List.cons_append, List.nil_append, Option.some.injEq,
    Prod.mk.injEq, and_true]
  apply UInt16.toNat_inj.1
  simp only [UInt16.toNat_ofNat', UInt8.toNat_ofNat']
  omega

theorem bigWord32?_ofBigWord32_append (v : Nat) (h : v < 4294967296) (rest : Bytes) :
    bigWord32? (ofBigWord32 v ++ rest) = some (v, rest) := by
  simp only [ofBigWord32, bigWord32?, List.cons_append, List.nil_append, Option.some.injEq,
    Prod.mk.injEq, and_true, UInt8.toNat_ofNat']
  omega

theorem eq_ofWord16_append_of_word16? {bytes rest : Bytes} {v : UInt16}
    (h : word16? bytes = some (v, rest)) : bytes = ofWord16 v ++ rest := by
  unfold word16? at h
  split at h
  · rename_i lo hi tail
    cases h
    have hlo := lo.toNat_lt
    have hhi := hi.toNat_lt
    have hlow : UInt8.ofNat ((word16 lo hi).toNat % 256) = lo := by
      apply UInt8.toNat_inj.1
      simp only [word16, UInt16.toNat_ofNat', UInt8.toNat_ofNat']
      omega
    have hhigh : UInt8.ofNat ((word16 lo hi).toNat / 256) = hi := by
      apply UInt8.toNat_inj.1
      simp only [word16, UInt16.toNat_ofNat', UInt8.toNat_ofNat']
      omega
    simp only [ofWord16, hlow, hhigh, List.cons_append, List.nil_append]
  · cases h

theorem eq_ofBigWord32_append_of_bigWord32? {bytes rest : Bytes} {v : Nat}
    (h : bigWord32? bytes = some (v, rest)) : bytes = ofBigWord32 v ++ rest ∧ v < 4294967296 := by
  unfold bigWord32? at h
  split at h
  · rename_i a b c d tail
    cases h
    have ha := a.toNat_lt
    have hb := b.toNat_lt
    have hc := c.toNat_lt
    have hd := d.toNat_lt
    refine ⟨?_, by omega⟩
    simp only [ofBigWord32, List.cons_append, List.nil_append, List.cons.injEq, and_true]
    refine ⟨?_, ?_, ?_, ?_⟩ <;>
      (apply UInt8.toNat_inj.1
       simp only [UInt8.toNat_ofNat']
       omega)
  · cases h

theorem length_of_bigWord32? {bytes rest : Bytes} {v : Nat}
    (h : bigWord32? bytes = some (v, rest)) : bytes.length = 4 + rest.length := by
  rw [(eq_ofBigWord32_append_of_bigWord32? h).1]
  simp

/-! ### Changing in place -/

def overwrite (bytes : Bytes) (pos : Nat) (new : Bytes) : Bytes :=
  bytes.take pos ++ new ++ bytes.drop (pos + new.length)

theorem length_overwrite {bytes new : Bytes} {pos : Nat} (h : pos + new.length ≤ bytes.length) :
    (overwrite bytes pos new).length = bytes.length := by
  simp only [overwrite, List.length_append, List.length_take, List.length_drop]
  omega

/-- Moves the `n` bytes at `source` to `target`; the two places may overlap. -/
def move (bytes : Bytes) (source n target : Nat) : Bytes :=
  overwrite bytes target ((bytes.drop source).take n)

theorem length_move {bytes : Bytes} {source n target : Nat} (h : target + n ≤ bytes.length) :
    (move bytes source n target).length = bytes.length := by
  apply length_overwrite
  simp only [List.length_take, List.length_drop]
  omega

end Bytes

end DialGraphics
