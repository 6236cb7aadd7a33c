import DialGraphics.Proofs.Machine.Metadata
import DialGraphics.Proofs.Png.ChunkStream

/-!
# Chunks and the bytes they come from

A chunk is pulled exactly off its own encoding, so pulling loses nothing: the chunks that were
pulled, encoded again and followed by the bytes that are left, are the bytes from the start. What is
left is where a chunk is cut off, be it in its length, its tag, its data or its checksum.
-/

namespace DialGraphics

namespace Png.Chunk

variable {bytes rest : Bytes} {c : Chunk}

theorem pull?_eq_some_iff :
    pull? bytes = some (c, rest) ↔ c.IsWritable ∧ bytes = c.encode ++ rest := by
  constructor
  · intro h
    simp only [pull?, Option.bind_eq_bind, Option.bind_eq_some_iff, Option.pure_def,
      Option.some.injEq, Prod.mk.injEq, Prod.exists] at h
    obtain ⟨length, r1, hlength, tag, r2, htag, data, r3, hdata, crc, r4, hcrc, rfl, rfl⟩ := h
    obtain ⟨rfl, hfits⟩ := Bytes.eq_ofBigWord32_append_of_bigWord32? hlength
    obtain rfl := Tag.eq_toBytes_append_of_read? htag
    obtain ⟨rfl, rfl⟩ := Bytes.splitAt?_eq_some_iff.1 hdata
    obtain ⟨rfl, hcrcFits⟩ := Bytes.eq_ofBigWord32_append_of_bigWord32? hcrc
    refine ⟨⟨hfits, hcrcFits⟩, ?_⟩
    simp only [encode, List.append_assoc]
  · rintro ⟨hc, rfl⟩
    exact pull?_encode_append hc rest

/-- Nothing can be pulled off a chunk that is cut off. -/
theorem pull?_take_encode {n : Nat} (hc : c.IsWritable) (hn : n < c.encode.length) :
    pull? (c.encode.take n) = none := by
  refine Option.eq_none_iff_forall_not_mem.2 fun ⟨d, rest⟩ hpull => ?_
  obtain ⟨hd, hcut⟩ := pull?_eq_some_iff.1 hpull
  have hwhole : c.encode = d.encode ++ (rest ++ c.encode.drop n) := by
    rw [← List.append_assoc, ← hcut, List.take_append_drop]
  have hpulled : pull? c.encode = some (c, []) := by
    have h := pull?_encode_append hc []
    rwa [List.append_nil] at h
  -- the whole chunk would be pulled as the other one, with bytes left
  rw [hwhole, pull?_encode_append hd] at hpulled
  obtain ⟨-, hrest⟩ := Prod.mk.inj (Option.some.inj hpulled)
  have hleft := congrArg List.length hrest
  rw [List.length_append, List.length_drop, List.length_nil] at hleft
  omega

theorem encodeAll_split (bytes : Bytes) :
    encodeAll (split bytes).1 ++ (split bytes).2 = bytes := by
  fun_induction split bytes with
  | case1 bytes hnone => rfl
  | case2 bytes c rest hpull chunks tail hsplit ih =>
    rw [hsplit] at ih
    rw [encodeAll_cons, List.append_assoc, ih, (pull?_eq_some_iff.1 hpull).2]

theorem isWritable_of_mem_split (bytes : Bytes) : ∀ c ∈ (split bytes).1, c.IsWritable := by
  fun_induction split bytes with
  | case1 bytes hnone => exact fun c hc => absurd hc List.not_mem_nil
  | case2 bytes c rest hpull chunks tail hsplit ih =>
    rw [hsplit] at ih
    exact List.forall_mem_cons.2 ⟨(pull?_eq_some_iff.1 hpull).1, ih⟩

theorem pull?_split (bytes : Bytes) : pull? (split bytes).2 = none := by
  fun_induction split bytes with
  | case1 bytes hnone => exact hnone
  | case2 bytes c rest hpull chunks tail hsplit ih =>
    rw [hsplit] at ih
    exact ih

end Png.Chunk

namespace Machine

open Png

variable {bytes rest : Bytes} {c : Chunk}

/-- What pulling chunk after chunk gives: the chunks, the bytes that are left, and why it ended
before they were used up. -/
structure ChunkScan where
  chunks : List Chunk
  left : Bytes
  error : Option PngError
  deriving DecidableEq, Repr

/-- Pulls chunk after chunk until no bytes are left or no chunk can be pulled. -/
def scanChunks (bytes : Bytes) : Checked ChunkScan :=
  if bytes.isEmpty then .ok ⟨[], [], none⟩
  else
    match _h : (pullChunk bytes).run with
    | .error t => .error t
    | .ok (.error e) => .ok ⟨[], bytes, some e⟩
    | .ok (.ok (c, rest)) => do
      let others ← scanChunks rest
      .ok { others with chunks := c :: others.chunks }
termination_by bytes.length
decreasing_by
  rw [run_pullChunk] at _h
  have := Chunk.length_of_pull? (orFail_eq_ok_iff.1 (Except.ok.inj _h))
  omega

/-- The bytes that are left are malformed, unless there are none. -/
def scanEnd (left : Bytes) : Option PngError := if left = [] then none else some .malformed

theorem scanChunks_of_pull?_eq_none (h : Chunk.pull? bytes = none) :
    scanChunks bytes = .ok ⟨[], bytes, scanEnd bytes⟩ := by
  have hrun := run_pullChunk bytes
  rw [h, orFail_none] at hrun
  cases bytes with
  | nil =>
    rw [scanChunks]
    rfl
  | cons b bytes =>
    rw [scanChunks]
    split
    · rename_i hempty
      cases hempty
    · split
      · rename_i hstopped
        cases hrun.symm.trans hstopped
      · rename_i hfailed
        cases hrun.symm.trans hfailed
        rfl
      · rename_i hpulled
        cases hrun.symm.trans hpulled

theorem scanChunks_of_pull?_eq_some (h : Chunk.pull? bytes = some (c, rest)) :
    scanChunks bytes
      = scanChunks rest >>= fun others => .ok { others with chunks := c :: others.chunks } := by
  have hrun := run_pullChunk bytes
  have hlength := Chunk.length_of_pull? h
  rw [h, orFail_some] at hrun
  rw [scanChunks]
  split
  · rename_i hempty
    rw [List.isEmpty_iff.1 hempty, List.length_nil] at hlength
    omega
  · split
    · rename_i hstopped
      cases hrun.symm.trans hstopped
    · rename_i hfailed
      cases hrun.symm.trans hfailed
    · rename_i hpulled
      cases hrun.symm.trans hpulled
      rfl

theorem scanChunks_eq (bytes : Bytes) :
    scanChunks bytes
      = .ok ⟨(Chunk.split bytes).1, (Chunk.split bytes).2, scanEnd (Chunk.split bytes).2⟩ := by
  fun_induction Chunk.split bytes with
  | case1 bytes hnone => exact scanChunks_of_pull?_eq_none hnone
  | case2 bytes c rest hpull chunks tail hsplit ih =>
    rw [hsplit] at ih
    rw [scanChunks_of_pull?_eq_some hpull, ih, ok_bind]

theorem pullChunk_eq_ok_iff :
    pullChunk bytes = settled (.ok (c, rest)) ↔ c.IsWritable ∧ bytes = c.encode ++ rest := by
  rw [pullChunk_eq, ← Chunk.pull?_eq_some_iff]
  constructor
  · intro h
    exact orFail_eq_ok_iff.1 (Except.ok.inj h)
  · intro h
    rw [h]
    rfl

theorem pullChunk_eq_error_iff {e : PngError} :
    pullChunk bytes = settled (.error e) ↔ Chunk.pull? bytes = none ∧ e = .malformed := by
  rw [pullChunk_eq]
  cases Chunk.pull? bytes with
  | none =>
    constructor
    · intro h
      cases h
      exact ⟨rfl, rfl⟩
    · rintro ⟨-, rfl⟩
      rfl
  | some p =>
    constructor
    · intro h
      cases h
    · rintro ⟨h, -⟩
      cases h

/-- Chunks that are encoded one after the other are pulled as they were, and what ends the scan is
what follows them: bytes off which no chunk can be pulled are malformed and stay as they are, and
such is every chunk that is cut off. Whatever the bytes are, the chunks that were pulled and what is
left are all of them; each chunk took up its own encoding, which has at least twelve bytes. -/
theorem scanChunks_lossless :
    (∀ chunks tail e, (∀ c ∈ chunks, c.IsWritable) → pullChunk tail = settled (.error e) →
      scanChunks (Chunk.encodeAll chunks ++ tail)
        = .ok ⟨chunks, tail, if tail = [] then none else some .malformed⟩)
      ∧ (∀ (c : Chunk) (n : Nat), c.IsWritable → n < c.encode.length →
        pullChunk (c.encode.take n) = settled (.error .malformed))
      ∧ (∀ bytes, ∃ chunks left, scanChunks bytes
          = .ok ⟨chunks, left, if left = [] then none else some .malformed⟩
        ∧ pullChunk left = settled (.error .malformed)
        ∧ (∀ c ∈ chunks, c.IsWritable) ∧ Chunk.encodeAll chunks ++ left = bytes)
      ∧ ∀ bytes c rest, pullChunk bytes = settled (.ok (c, rest)) →
        bytes = c.encode ++ rest ∧ c.IsWritable ∧ rest.length + 12 ≤ bytes.length := by
  refine ⟨?_, ?_, ?_, ?_⟩
  · intro chunks tail e hchunks htail
    have hsplit := Chunk.split_encodeAll_append hchunks tail
    rw [Chunk.split_of_pull?_eq_none (pullChunk_eq_error_iff.1 htail).1, List.append_nil] at hsplit
    rw [scanChunks_eq, hsplit]
    rfl
  · intro c n hc hn
    exact pullChunk_eq_error_iff.2 ⟨Chunk.pull?_take_encode hc hn, rfl⟩
  · intro bytes
    exact ⟨_, _, scanChunks_eq bytes, pullChunk_eq_error_iff.2 ⟨Chunk.pull?_split bytes, rfl⟩,
      Chunk.isWritable_of_mem_split bytes, Chunk.encodeAll_split bytes⟩
  · intro bytes c rest hpull
    obtain ⟨hc, hbytes⟩ := pullChunk_eq_ok_iff.1 hpull
    have hlength := Chunk.length_of_pull? (Chunk.pull?_eq_some_iff.2 ⟨hc, hbytes⟩)
    exact ⟨hbytes, hc, by omega⟩

/-- Two chunks, one of them without data, and a third that is cut off in its checksum. -/
theorem scanChunks_lossless_cutChecksum :
    let chunks : List Chunk :=
      [⟨Tag.ofChars 'a' 'b' 'C' 'd', [7, 8], 0x01020304⟩, ⟨Tag.iend, [], 0xFFFFFFFF⟩]
    let third : Chunk := ⟨Tag.trns, [9], 0⟩
    (∀ c ∈ chunks, c.IsWritable) ∧ third.IsWritable ∧ 12 < third.encode.length
      ∧ pullChunk (third.encode.take 12) = settled (.error .malformed)
      ∧ scanChunks (Chunk.encodeAll chunks ++ third.encode.take 12)
        = .ok ⟨chunks, third.encode.take 12, some .malformed⟩
      ∧ pullChunk (Chunk.encodeAll chunks) = settled (.ok (chunks[0], Chunk.encode chunks[1]))
      ∧ (Chunk.encode chunks[1]).length + 12 ≤ (Chunk.encodeAll chunks).length := by
  intro chunks third
  have hchunks : ∀ c ∈ chunks, c.IsWritable := by decide
  have hthird : third.IsWritable := by decide
  have hcut : 12 < third.encode.length := by decide
  have hfirst : pullChunk (Chunk.encodeAll chunks)
      = settled (.ok (chunks[0], Chunk.encode chunks[1])) := rfl
  obtain ⟨hwritten, htaken, -, hpulled⟩ := scanChunks_lossless
  have htail := htaken third 12 hthird hcut
  obtain ⟨-, -, hlength⟩ := hpulled _ _ _ hfirst
  exact ⟨hchunks, hthird, hcut, htail, hwritten chunks _ _ hchunks htail, hfirst, hlength⟩

end Machine

end DialGraphics
