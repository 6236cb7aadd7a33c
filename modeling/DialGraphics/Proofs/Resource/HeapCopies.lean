import DialGraphics.Resource.Map
import Mathlib.Data.Nat.ModEq

/-!
# The bytes of a heap copy

Moving the stretch of a heap copy leaves its bytes as they are, giving up its front is cutting it
off, and what is written over the whole stretch is what it holds afterwards. It can be aligned if
any aligned place of its buffer has room for it.
-/

namespace DialGraphics

theorem Bytes.slice_overwrite {bytes new : Bytes} {pos : Nat}
    (h : pos + new.length ≤ bytes.length) :
    ((bytes.overwrite pos new).drop pos).take new.length = new := by
  have hfront : (bytes.take pos).length = pos := List.length_take_of_le (by omega)
  rw [overwrite, List.append_assoc, List.drop_append_of_le_length (by omega),
    List.drop_eq_nil_of_le (by omega), List.nil_append, List.take_left]

theorem Bytes.slice_move {bytes : Bytes} {source n target : Nat}
    (hsource : source + n ≤ bytes.length) (htarget : target + n ≤ bytes.length) :
    ((bytes.move source n target).drop target).take n = (bytes.drop source).take n := by
  have hlength : ((bytes.drop source).take n).length = n := by
    rw [List.length_take, List.length_drop]
    omega
  have hroom : target + ((bytes.drop source).take n).length ≤ bytes.length := by
    rw [hlength]
    exact htarget
  have hslice := Bytes.slice_overwrite hroom
  rw [hlength] at hslice
  exact hslice

theorem Bytes.move_self {bytes : Bytes} {start n : Nat} (h : start + n ≤ bytes.length) :
    bytes.move start n start = bytes := by
  have hlength : ((bytes.drop start).take n).length = n := by
    rw [List.length_take, List.length_drop]
    omega
  rw [move, overwrite, hlength, List.append_assoc, ← List.drop_drop, List.take_append_drop,
    List.take_append_drop]

namespace HeapBytes

theorem toBytes_ofPadded (base : Nat) (bytes : Bytes) (pad : Nat) :
    (ofPadded base bytes pad).toBytes = bytes :=
  List.take_left

theorem toBytes_align (h : HeapBytes) (alignment : Nat) :
    (h.align alignment).2.toBytes = h.toBytes := by
  unfold align
  split
  · simp only
    split
    · rename_i room
      exact Bytes.slice_move h.within room
    · rfl
  · rfl

theorem toBytes_advance (h : HeapBytes) (n : Nat) : (h.advance n).toBytes = h.toBytes.drop n := by
  have hwithin := h.within
  have hsource : h.start + min n h.length + (h.length - min n h.length) ≤ h.buffer.length := by
    omega
  have htarget : h.start + (h.length - min n h.length) ≤ h.buffer.length := by omega
  have hkept : (h.advance n).toBytes
      = (h.buffer.drop (h.start + min n h.length)).take (h.length - min n h.length) :=
    Bytes.slice_move hsource htarget
  rw [hkept, toBytes, List.drop_take, List.drop_drop]
  rcases Nat.le_total n h.length with hle | hge
  · rw [Nat.min_eq_left hle]
  · rw [Nat.min_eq_right hge, Nat.sub_self, Nat.sub_eq_zero_of_le hge, List.take_zero,
      List.take_zero]

theorem toBytes_replace (h : HeapBytes) {bytes : Bytes} (hlength : bytes.length = h.length) :
    (h.replace bytes).toBytes = bytes := by
  have hwithin := h.within
  have hall : bytes.take h.length = bytes := by rw [← hlength, List.take_length]
  have hroom : h.start + bytes.length ≤ h.buffer.length := by omega
  have hslice := Bytes.slice_overwrite hroom
  rw [hlength] at hslice
  simp only [replace, toBytes, hall, hslice]

theorem toBytes_detach (h : HeapBytes) : h.detach = h.toBytes := by
  have hwithin := h.within
  have hroom : 0 + h.length ≤ h.buffer.length := by omega
  have hslice := Bytes.slice_move h.within hroom
  rw [List.drop_zero] at hslice
  exact hslice

/-! ### Aligned addresses -/

theorem isPowerOfTwo_iff {n : Nat} : isPowerOfTwo n = true ↔ ∃ k, n = 2 ^ k := by
  unfold isPowerOfTwo
  rw [Bool.and_eq_true, decide_eq_true_eq, beq_iff_eq]
  constructor
  · rintro ⟨-, hpow⟩
    exact ⟨n.log2, hpow.symm⟩
  · rintro ⟨k, rfl⟩
    rw [Nat.log2_two_pow]
    exact ⟨Nat.ne_of_gt (Nat.two_pow_pos k), rfl⟩

theorem pos_of_isPowerOfTwo {n : Nat} (h : isPowerOfTwo n = true) : 0 < n := by
  obtain ⟨k, rfl⟩ := isPowerOfTwo_iff.1 h
  exact Nat.two_pow_pos k

section

variable {base alignment : Nat}

theorem alignedStart_lt (h : 0 < alignment) : alignedStart base alignment < alignment :=
  Nat.mod_lt _ h

theorem dvd_add_alignedStart (h : 0 < alignment) :
    alignment ∣ base + alignedStart base alignment := by
  have hpast := Nat.mod_lt base h
  have hdivision := Nat.div_add_mod base alignment
  have hnext : base + (alignment - base % alignment)
      = alignment * (base / alignment) + alignment := by omega
  have hdvd : alignment ∣ base + (alignment - base % alignment) := by
    rw [hnext]
    exact Nat.dvd_add (Nat.dvd_mul_right ..) (Nat.dvd_refl _)
  rw [Nat.dvd_iff_mod_eq_zero] at hdvd ⊢
  rw [alignedStart, Nat.add_mod_mod, hdvd]

/-- No aligned address lies in front of it. -/
theorem alignedStart_le {offset : Nat} (h : 0 < alignment) (hoffset : alignment ∣ base + offset) :
    alignedStart base alignment ≤ offset := by
  have hboth : base + alignedStart base alignment ≡ base + offset [MOD alignment] :=
    (Nat.modEq_zero_iff_dvd.2 (dvd_add_alignedStart h)).trans
      (Nat.modEq_zero_iff_dvd.2 hoffset).symm
  have hsame : alignedStart base alignment % alignment = offset % alignment :=
    Nat.ModEq.add_left_cancel' base hboth
  rw [Nat.mod_eq_of_lt (alignedStart_lt h)] at hsame
  rw [hsame]
  exact Nat.mod_le ..

end

section

variable {h : HeapBytes} {alignment : Nat}

theorem align_of_room (hpower : isPowerOfTwo alignment = true)
    (room : alignedStart h.base alignment + h.length ≤ h.buffer.length) :
    h.align alignment = (true, { h with
      buffer := h.buffer.move h.start h.length (alignedStart h.base alignment)
      start := alignedStart h.base alignment
      within := by rw [Bytes.length_move room]; exact room }) := by
  unfold align
  rw [if_pos hpower]
  exact dif_pos room

theorem align_of_refused (hrefused : ¬ (isPowerOfTwo alignment = true
    ∧ alignedStart h.base alignment + h.length ≤ h.buffer.length)) :
    h.align alignment = (false, h) := by
  unfold align
  split
  · rename_i hpower
    exact dif_neg fun room => hrefused ⟨hpower, room⟩
  · rfl

theorem align_cases (h : HeapBytes) (alignment : Nat) :
    ((h.align alignment).1 = true ∧ isPowerOfTwo alignment = true
      ∧ alignedStart h.base alignment + h.length ≤ h.buffer.length)
    ∨ h.align alignment = (false, h) ∧ ¬ (isPowerOfTwo alignment = true
      ∧ alignedStart h.base alignment + h.length ≤ h.buffer.length) := by
  by_cases hfits : isPowerOfTwo alignment = true
      ∧ alignedStart h.base alignment + h.length ≤ h.buffer.length
  · rw [align_of_room hfits.1 hfits.2]
    exact Or.inl ⟨rfl, hfits⟩
  · exact Or.inr ⟨align_of_refused hfits, hfits⟩

/-- A stretch can be aligned if any aligned place of the buffer has room for it. -/
theorem align_eq_true_iff : (h.align alignment).1 = true ↔ (∃ k, alignment = 2 ^ k)
    ∧ ∃ offset, offset + h.length ≤ h.buffer.length ∧ alignment ∣ h.base + offset := by
  rw [← isPowerOfTwo_iff]
  constructor
  · intro hdone
    obtain ⟨-, hpower, room⟩ | ⟨hrefused, -⟩ := h.align_cases alignment
    · exact ⟨hpower, _, room, dvd_add_alignedStart (pos_of_isPowerOfTwo hpower)⟩
    · rw [hrefused] at hdone
      cases hdone
  · rintro ⟨hpower, offset, hroom, hoffset⟩
    have hfirst := alignedStart_le (pos_of_isPowerOfTwo hpower) hoffset
    rw [align_of_room hpower (by omega)]

theorem dvd_of_align (hdone : (h.align alignment).1 = true) :
    alignment ∣ h.base + (h.align alignment).2.start := by
  obtain ⟨-, hpower, room⟩ | ⟨hrefused, -⟩ := h.align_cases alignment
  · rw [align_of_room hpower room]
    exact dvd_add_alignedStart (pos_of_isPowerOfTwo hpower)
  · rw [hrefused] at hdone
    cases hdone

theorem align_unchanged (hrefused : (h.align alignment).1 = false) :
    (h.align alignment).2 = h := by
  obtain ⟨hdone, -⟩ | ⟨hsame, -⟩ := h.align_cases alignment
  · rw [hdone] at hrefused
    cases hrefused
  · rw [hsame]

end

end HeapBytes

namespace ResourceBytes

theorem toBytes_advance (r : ResourceBytes) (n : Nat) :
    (r.advance n).toBytes = r.toBytes.drop n := by
  cases r with
  | mapped key bytes => rfl
  | heap copy => exact copy.toBytes_advance n

theorem toBytes_replace {r : ResourceBytes} {bytes : Bytes} (hr : r.isMapped = false)
    (hlength : bytes.length = r.toBytes.length) : (r.replace bytes).toBytes = bytes := by
  cases r with
  | mapped key old => cases hr
  | heap copy =>
    exact copy.toBytes_replace (hlength.trans copy.length_toBytes)

end ResourceBytes

end DialGraphics
