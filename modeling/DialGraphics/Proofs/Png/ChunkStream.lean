import DialGraphics.Png.Decoder

/-!
# Streams of chunks

Chunks whose length and checksum fit their fields come back from a file as they were written, and
nothing is left over. A run of data chunks gives the joined payloads, however they are divided.
-/

namespace DialGraphics.Png

def wordLimit : Nat := 4294967296

namespace Chunk

def IsWritable (c : Chunk) : Prop := c.data.length < wordLimit ∧ c.crc < wordLimit

instance (c : Chunk) : Decidable c.IsWritable := inferInstanceAs (Decidable (_ ∧ _))

theorem pull?_encode_append {c : Chunk} (h : c.IsWritable) (rest : Bytes) :
    pull? (c.encode ++ rest) = some (c, rest) := by
  have hlength := Bytes.bigWord32?_ofBigWord32_append c.data.length h.1
    (c.tag.toBytes ++ (c.data ++ (Bytes.ofBigWord32 c.crc ++ rest)))
  have hdata : Bytes.splitAt? c.data.length (c.data ++ (Bytes.ofBigWord32 c.crc ++ rest))
      = some (c.data, Bytes.ofBigWord32 c.crc ++ rest) :=
    Bytes.splitAt?_eq_some_iff.2 ⟨rfl, rfl⟩
  have hcrc := Bytes.bigWord32?_ofBigWord32_append c.crc h.2 rest
  simp only [encode, List.append_assoc, pull?]
  rw [hlength]
  simp only [Option.bind_eq_bind, Option.bind_some, Tag.read?_toBytes_append]
  rw [hdata]
  simp only [Option.bind_some]
  rw [hcrc]
  rfl

theorem encodeAll_cons (c : Chunk) (chunks : List Chunk) :
    encodeAll (c :: chunks) = c.encode ++ encodeAll chunks := rfl

theorem split_encodeAll_append {chunks : List Chunk} (h : ∀ c ∈ chunks, c.IsWritable)
    (tail : Bytes) :
    split (encodeAll chunks ++ tail) = (chunks ++ (split tail).1, (split tail).2) := by
  induction chunks with
  | nil => rfl
  | cons c chunks ih =>
    have hc := pull?_encode_append (h c (List.mem_cons_self ..)) (encodeAll chunks ++ tail)
    have hrest := ih fun d hd => h d (List.mem_cons_of_mem _ hd)
    rw [encodeAll_cons, List.append_assoc, split]
    split
    · rename_i hnone
      rw [hc] at hnone
      cases hnone
    · rename_i hsome
      rw [hc] at hsome
      cases hsome
      rw [hrest]
      rfl

theorem split_of_pull?_eq_none {bytes : Bytes} (h : pull? bytes = none) :
    split bytes = ([], bytes) := by
  rw [split]
  split
  · rfl
  · rename_i hsome
    rw [h] at hsome
    cases hsome

theorem split_nil : split [] = ([], []) := split_of_pull?_eq_none rfl

end Chunk

theorem isPng_pngSignature_append (bytes : Bytes) : isPng (pngSignature ++ bytes) = true := by
  have htake : (pngSignature ++ bytes).take 8 = pngSignature := List.take_left' rfl
  rw [isPng, htake]
  rfl

theorem Decoder.stage_ofBytes (bytes : Bytes) : (Decoder.ofBytes bytes).stage = .fresh := by
  unfold Decoder.ofBytes
  split
  · rfl
  · rfl

theorem Decoder.unfailed_ofBytes (bytes : Bytes) : (Decoder.ofBytes bytes).stage ≠ .failed := by
  rw [stage_ofBytes]
  decide

theorem Decoder.ofBytes_encodeFile_append {chunks : List Chunk} (h : ∀ c ∈ chunks, c.IsWritable)
    (tail : Bytes) :
    Decoder.ofBytes (Chunk.encodeFile chunks ++ tail)
      = { signed := true, chunks := chunks ++ (Chunk.split tail).1 } := by
  have hdrop : (pngSignature ++ (Chunk.encodeAll chunks ++ tail)).drop 8
      = Chunk.encodeAll chunks ++ tail := List.drop_left' rfl
  rw [Decoder.ofBytes, Chunk.encodeFile, List.append_assoc, if_pos (isPng_pngSignature_append _),
    hdrop, Chunk.split_encodeAll_append h]

theorem Decoder.ofBytes_encodeFile {chunks : List Chunk} (h : ∀ c ∈ chunks, c.IsWritable) :
    Decoder.ofBytes (Chunk.encodeFile chunks) = { signed := true, chunks } := by
  have happend := ofBytes_encodeFile_append h []
  rw [List.append_nil, Chunk.split_nil, List.append_nil] at happend
  exact happend

/-! ### Runs of image data -/

/-- Where the payload of a data chunk starts: behind the sequence number, if it has one. -/
def payloadStart (tag : Tag) : Nat := if tag = Tag.fdat then sequenceNumberSize else 0

theorem payload?_eq_some {c : Chunk} (h : payloadStart c.tag ≤ c.data.length) :
    payload? c = some (c.data.drop (payloadStart c.tag)) := by
  unfold payload?
  unfold payloadStart at h ⊢
  split
  · rename_i htag
    rw [if_pos htag] at h
    rw [if_neg (Nat.not_lt.2 h)]
  · rfl

theorem mapM_payload? {run : List Chunk} (h : ∀ c ∈ run, payloadStart c.tag ≤ c.data.length) :
    run.mapM payload? = some (run.map fun c => c.data.drop (payloadStart c.tag)) := by
  induction run with
  | nil => rfl
  | cons c run ih =>
    rw [List.mapM_cons, payload?_eq_some (h c (List.mem_cons_self ..)),
      ih fun d hd => h d (List.mem_cons_of_mem _ hd)]
    rfl

theorem mapM_payload?_idat {run : List Chunk} (h : ∀ c ∈ run, c.tag = Tag.idat) :
    run.mapM payload? = some (run.map Chunk.data) := by
  have hstart : ∀ c ∈ run, payloadStart c.tag = 0 := by
    intro c hc
    rw [h c hc]
    rfl
  rw [mapM_payload? fun c hc => by rw [hstart c hc]; exact Nat.zero_le _]
  congr 1
  exact List.map_congr_left fun c hc => by rw [hstart c hc, List.drop_zero]

theorem dataRun?_append {tag : Tag} {run rest : List Chunk} {payloads : List Bytes}
    (hne : run ≠ []) (hrun : ∀ c ∈ run, c.tag = tag) (hrest : ∀ c ∈ rest.head?, c.tag ≠ tag)
    (hpayloads : run.mapM payload? = some payloads) :
    dataRun? (run ++ rest) = some (payloads.flatten, rest) := by
  obtain ⟨first, others, rfl⟩ := List.exists_cons_of_ne_nil hne
  have hfirst : first.tag = tag := hrun first (List.mem_cons_self ..)
  have hall : ∀ c ∈ first :: others, decide (c.tag = first.tag) = true := by
    intro c hc
    rw [hrun c hc, hfirst]
    exact decide_eq_true rfl
  have hstop : rest.takeWhile (fun c => decide (c.tag = first.tag)) = []
      ∧ rest.dropWhile (fun c => decide (c.tag = first.tag)) = rest := by
    cases rest with
    | nil => exact ⟨rfl, rfl⟩
    | cons c cs =>
      have hc : c.tag ≠ first.tag := by
        rw [hfirst]
        exact hrest c rfl
      constructor
      · rw [List.takeWhile_cons_of_neg (by simpa using hc)]
      · rw [List.dropWhile_cons_of_neg (by simpa using hc)]
  have htake : (first :: (others ++ rest)).takeWhile (fun c => decide (c.tag = first.tag))
      = first :: others := by
    rw [← List.cons_append, List.takeWhile_append_of_pos hall, hstop.1, List.append_nil]
  have hdrop : (first :: (others ++ rest)).dropWhile (fun c => decide (c.tag = first.tag))
      = rest := by
    rw [← List.cons_append, List.dropWhile_append_of_pos hall, hstop.2]
  simp only [dataRun?, List.cons_append]
  rw [htake, hdrop, hpayloads]
  rfl

/-- A division of a stream into data chunks. Sequence numbers and checksums may be anything. -/
structure DataRun (tag : Tag) (stream : Bytes) where
  chunks : List Chunk
  ne_nil : chunks ≠ []
  tag_eq : ∀ c ∈ chunks, c.tag = tag
  writable : ∀ c ∈ chunks, c.IsWritable
  start_le : ∀ c ∈ chunks, payloadStart tag ≤ c.data.length
  joined : (chunks.map fun c => c.data.drop (payloadStart tag)).flatten = stream

namespace DataRun

variable {tag : Tag} {stream : Bytes}

theorem chunks_eq_cons (run : DataRun tag stream) :
    ∃ first others, run.chunks = first :: others ∧ first.tag = tag := by
  obtain ⟨first, others, hrun⟩ := List.exists_cons_of_ne_nil run.ne_nil
  exact ⟨first, others, hrun, run.tag_eq first (by rw [hrun]; exact List.mem_cons_self ..)⟩

theorem dataRun?_chunks_append (run : DataRun tag stream) {rest : List Chunk}
    (hrest : ∀ c ∈ rest.head?, c.tag ≠ tag) :
    dataRun? (run.chunks ++ rest) = some (stream, rest) := by
  have hstart : ∀ c ∈ run.chunks, payloadStart c.tag ≤ c.data.length := by
    intro c hc
    rw [run.tag_eq c hc]
    exact run.start_le c hc
  have hdrop : (run.chunks.map fun c => c.data.drop (payloadStart c.tag))
      = run.chunks.map fun c => c.data.drop (payloadStart tag) :=
    List.map_congr_left fun c hc => by rw [run.tag_eq c hc]
  rw [dataRun?_append run.ne_nil run.tag_eq hrest (mapM_payload? hstart), hdrop, run.joined]

end DataRun

end DialGraphics.Png
