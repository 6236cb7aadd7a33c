import DialGraphics.Bytes.Basic

/-!
# Bits of a compressed stream

A stream is read bit by bit, each byte from its lowest bit. `remaining` counts the bits that are
left; every reader lowers it, which is why decoding ends.
-/

namespace DialGraphics.Deflate

/-- Bytes of which the lowest `used` bits of the first are already read. -/
structure Bits where
  bytes : Bytes
  used : Nat := 0
  used_lt : used < 8 := by omega

namespace Bits

/-- The number of bits that are left, counting those of a partly read byte. -/
def remaining (b : Bits) : Nat := 8 * b.bytes.length - b.used

def bit? (b : Bits) : Option (Nat × Bits) :=
  match b.bytes with
  | [] => none
  | byte :: rest =>
    some ((byte.toNat >>> b.used) % 2,
      if h : b.used + 1 < 8 then ⟨b.bytes, b.used + 1, h⟩ else ⟨rest, 0, by omega⟩)

/-- A number of `n` bits, lowest bit first. -/
def number? : Nat → Bits → Option (Nat × Bits)
  | 0, b => some (0, b)
  | n + 1, b =>
    match b.bit? with
    | none => none
    | some (low, rest) =>
      match number? n rest with
      | none => none
      | some (high, rest) => some (low + 2 * high, rest)

def align (b : Bits) : Bytes := if b.used = 0 then b.bytes else b.bytes.tail

def ofBytes (bytes : Bytes) : Bits := ⟨bytes, 0, by omega⟩

theorem remaining_of_bit? {b rest : Bits} {v : Nat} (h : b.bit? = some (v, rest)) :
    rest.remaining + 1 = b.remaining := by
  obtain ⟨bytes, used, hu⟩ := b
  cases bytes with
  | nil => simp [bit?] at h
  | cons byte tail =>
    simp only [bit?, Option.some.injEq, Prod.mk.injEq] at h
    obtain ⟨_, rfl⟩ := h
    split <;> simp only [remaining, List.length_cons] <;> omega

theorem remaining_of_number? {n : Nat} {b rest : Bits} {v : Nat}
    (h : number? n b = some (v, rest)) : rest.remaining + n = b.remaining := by
  induction n generalizing b rest v with
  | zero =>
    cases h
    rfl
  | succ n ih =>
    simp only [number?] at h
    split at h
    · cases h
    · rename_i hb
      split at h
      · cases h
      · rename_i hn
        cases h
        have h1 := remaining_of_bit? hb
        have h2 := ih hn
        omega

theorem length_align_le (b : Bits) : 8 * b.align.length ≤ b.remaining := by
  have := b.used_lt
  simp only [align, remaining]
  split
  · omega
  · rw [List.length_tail]
    omega

end Bits

end DialGraphics.Deflate
