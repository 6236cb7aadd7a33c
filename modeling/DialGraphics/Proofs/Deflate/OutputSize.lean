import DialGraphics.Proofs.Deflate.SliceLoop

/-!
# The size of the output

Blocks never write past the limit that they are given. An inflater that reads them from slices
therefore stays in the output, wherever the slices are cut.
-/

namespace DialGraphics.Deflate

theorem size_copyBack (distance n : Nat) (out : Output) :
    (copyBack distance n out).size = out.size + n := by
  induction n generalizing out with
  | zero => rfl
  | succ n ih =>
    rw [copyBack, ih, Array.size_push]
    omega

theorem size_of_symbols? {limit : Nat} {literals distances : Code} {out out' : Output}
    {bits rest : Bits} (h : symbols? limit literals distances out bits = some (out', rest))
    (hroom : out.size ≤ limit) : out'.size ≤ limit := by
  fun_induction symbols? limit literals distances out bits with
  | case1 => cases h
  | case2 out bits symbol rest' _ _ hlt ih =>
    exact ih h (by rw [Array.size_push]; exact hlt)
  | case3 => cases h
  | case4 =>
    cases h
    exact hroom
  | case5 => cases h
  | case6 out bits symbol rest' _ _ _ copy rest'' _ hfits ih =>
    exact ih h (by rw [size_copyBack]; exact hfits.2)
  | case7 => cases h

theorem size_of_stored? {limit : Nat} {out out' : Output} {bytes rest : Bytes}
    (h : stored? limit out bytes = some (out', rest)) : out'.size ≤ limit := by
  simp only [stored?, Option.bind_eq_bind, Option.bind_eq_some_iff, Prod.exists] at h
  obtain ⟨_, _, _, _, _, _, h⟩ := h
  split at h
  · cases h
  · simp only [Option.bind_eq_some_iff, Prod.exists] at h
    obtain ⟨data, _, _, h⟩ := h
    split at h
    · rename_i hfits
      cases h
      rw [size_append_bytes]
      exact hfits
    · cases h

theorem size_of_block? {limit kind : Nat} {out out' : Output} {bits rest : Bits}
    (h : block? limit kind out bits = some (out', rest)) (hroom : out.size ≤ limit) :
    out'.size ≤ limit := by
  unfold block? at h
  split at h
  · simp only [Option.map_eq_some_iff, Prod.mk.injEq, Prod.exists] at h
    obtain ⟨_, _, hstored, rfl, _⟩ := h
    exact size_of_stored? hstored
  · simp only [Option.bind_eq_some_iff] at h
    obtain ⟨_, _, h⟩ := h
    exact size_of_symbols? h hroom
  · split at h
    · cases h
    · exact size_of_symbols? h hroom
  · cases h

theorem size_of_blocks? {limit : Nat} {out out' : Output} {bits rest : Bits}
    (h : blocks? limit out bits = some (out', rest)) (hroom : out.size ≤ limit) :
    out'.size ≤ limit := by
  fun_induction blocks? limit out bits with
  | case1 => cases h
  | case2 => cases h
  | case3 => cases h
  | case4 out bits rest1 kind rest2 _ out1 rest3 hblock _ =>
    cases h
    exact size_of_block? hblock hroom
  | case5 out bits last rest1 _ kind rest2 _ out1 rest3 hblock _ ih =>
    exact ih h (size_of_block? hblock hroom)

theorem Zlib.size_of_body? {size : Nat} {stream : Bytes} {result : Output × Bits}
    (h : body? size stream = some result) : result.1.size ≤ size := by
  unfold body? at h
  split at h
  · split at h
    · exact size_of_blocks? h (Nat.zero_le _)
    · cases h
  · cases h

namespace Inflater

/-- Never writes more bytes than the output has room for. -/
def StaysInOutput (i : Inflater) : Prop :=
  ∀ state size out slice more, out.length ≤ size →
    out.length + (i.feed state size out slice more).written.length ≤ size

theorem staysInOutput_rereading : rereading.StaysInOutput := by
  intro (state : Bytes) size out slice more hroom
  simp only [rereading]
  split
  · exact hroom
  · rename_i result hbody
    have hsize := Zlib.size_of_body? hbody
    simp only [List.length_drop, Array.length_toList]
    omega

end Inflater

end DialGraphics.Deflate
