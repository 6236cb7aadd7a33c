import DialGraphics.Png.Slices
import DialGraphics.Proofs.Deflate.SliceLoop
import DialGraphics.Proofs.Png.ChunkStream

/-!
# Runs of image data in slices

A run of data chunks is gone over twice, once for its end and once for its payloads. The two walks
agree on what the run is, so a decoder that hands the payloads to an inflater one by one does what a
decoder does that joins them first, as long as the inflater reads its slices as one stream.
-/

namespace DialGraphics.Png

/-! ### The two walks -/

theorem behindRun?_eq (tag : Tag) (chunks : List Chunk) :
    behindRun? tag chunks
      = ((chunks.takeWhile (·.tag = tag)).mapM payload?).map
          fun _ => chunks.dropWhile (·.tag = tag) := by
  induction chunks with
  | nil => rfl
  | cons c chunks ih =>
    by_cases htag : c.tag = tag
    · rw [behindRun?, if_neg (by simpa using htag), ih,
        List.takeWhile_cons_of_pos (by simpa using htag),
        List.dropWhile_cons_of_pos (by simpa using htag), List.mapM_cons]
      by_cases hshort : tag = Tag.fdat ∧ c.data.length < sequenceNumberSize
      · have hnone : payload? c = none := by
          rw [payload?, htag, if_pos hshort.1, if_pos hshort.2]
        rw [if_pos hshort, hnone]
        rfl
      · have hstart : payloadStart c.tag ≤ c.data.length := by
          rw [htag, payloadStart]
          split
          · exact Nat.not_lt.1 fun hlt => hshort ⟨‹_›, hlt⟩
          · exact Nat.zero_le _
        rw [if_neg hshort, payload?_eq_some hstart]
        cases (chunks.takeWhile (·.tag = tag)).mapM payload? with
        | none => rfl
        | some payloads => rfl
    · rw [behindRun?, if_pos htag, List.takeWhile_cons_of_neg (by simpa using htag),
        List.dropWhile_cons_of_neg (by simpa using htag)]
      rfl

theorem slices_eq {tag : Tag} {chunks : List Chunk} {payloads : List Bytes}
    (h : (chunks.takeWhile (·.tag = tag)).mapM payload? = some payloads) :
    slices tag chunks = payloads := by
  induction chunks generalizing payloads with
  | nil =>
    cases h
    rfl
  | cons c chunks ih =>
    by_cases htag : c.tag = tag
    · rw [List.takeWhile_cons_of_pos (by simpa using htag), List.mapM_cons] at h
      simp only [Option.bind_eq_bind, Option.bind_eq_some_iff, Option.pure_def,
        Option.some.injEq] at h
      obtain ⟨payload, hpayload, others, hothers, rfl⟩ := h
      rw [slices, if_neg (by simpa using htag), hpayload, ih hothers]
    · rw [List.takeWhile_cons_of_neg (by simpa using htag)] at h
      cases h
      rw [slices, if_pos htag]
      rfl

/-- The payloads of the run in front, one by one, with the chunks that follow. -/
def payloadRun? : List Chunk → Option (List Bytes × List Chunk)
  | [] => none
  | first :: others =>
    (((first :: others).takeWhile (·.tag = first.tag)).mapM payload?).map fun payloads =>
      (payloads, (first :: others).dropWhile (·.tag = first.tag))

theorem dataRun?_eq_map (chunks : List Chunk) :
    dataRun? chunks = (payloadRun? chunks).map fun run => (run.1.flatten, run.2) := by
  cases chunks with
  | nil => rfl
  | cons first others =>
    simp only [dataRun?, payloadRun?, Option.map_map]
    rfl

/-! ### Slice by slice -/

theorem decodeLines_eq {i : Deflate.Inflater} (hi : i.ReadsOneStream) (h : Header)
    (control : Option FrameControl) (payloads : List Bytes) :
    Frame.decodeLines (i.inflate? · payloads) h control
      = Frame.decode h control payloads.flatten := by
  have hlines : (i.inflate? · payloads) = fun size => Deflate.Zlib.inflate? size payloads.flatten :=
    funext fun size => Deflate.Inflater.inflate?_eq hi size payloads
  rw [hlines]
  cases control with
  | none => rfl
  | some f => rfl

namespace Decoder

theorem decodeRun_eq (i : Deflate.Inflater) (d : Decoder) (h : Header)
    (control : Option FrameControl) (chunks : List Chunk) :
    BySlices.decodeRun i d h control chunks =
      match payloadRun? chunks with
      | none => (.error .malformed, d.fail .malformed)
      | some (payloads, rest) =>
        match Frame.decodeLines (i.inflate? · payloads) h control with
        | .error e => (.error e, { d with chunks := rest }.fail e)
        | .ok frame =>
          (.ok frame,
            { d with
              chunks := rest
              framesDecoded := d.framesDecoded + 1
              stage := .decoded }) := by
  cases chunks with
  | nil => rfl
  | cons first others =>
    simp only [BySlices.decodeRun, payloadRun?]
    rw [behindRun?_eq]
    generalize hrun : ((first :: others).takeWhile (·.tag = first.tag)).mapM payload? = run
    cases run with
    | none => rfl
    | some payloads =>
      cases hframe : Frame.decodeLines (i.inflate? · payloads) h control with
      | error e => simp only [Option.map_some, slices_eq hrun, hframe]
      | ok frame => simp only [Option.map_some, slices_eq hrun, hframe]

section Joined

variable {i : Deflate.Inflater} (hi : i.ReadsOneStream) (d : Decoder)

include hi

theorem decodeNext_bySlices (h : Header) : BySlices.decodeNext i d h = d.decodeNext h := by
  unfold BySlices.decodeNext decodeNext
  split
  · rfl
  · cases seek h (d.framesDecoded == 0) d.metadata.animation.isSome d.metadata.control d.chunks with
    | failed e => rfl
    | ended control rest => rfl
    | data control chunks =>
      simp only [decodeRun_eq, dataRun?_eq_map]
      cases payloadRun? chunks with
      | none => rfl
      | some run =>
        cases hframe : Frame.decode h control run.1.flatten with
        | error e => simp only [Option.map_some, decodeLines_eq hi, hframe]
        | ok frame => simp only [Option.map_some, decodeLines_eq hi, hframe]

theorem nextFrame_bySlices : BySlices.nextFrame i d = d.nextFrame := by
  simp only [BySlices.nextFrame, decodeNext_bySlices hi]
  rfl

theorem perform_bySlices (op : Operation) : BySlices.perform i d op = d.perform op := by
  cases op with
  | header => rfl
  | metadata => rfl
  | frame => simp only [BySlices.perform, nextFrame_bySlices hi, perform]

theorem performAll_bySlices (ops : List Operation) :
    BySlices.performAll i d ops = d.performAll ops := by
  induction ops generalizing d with
  | nil => rfl
  | cons op ops ih => simp only [BySlices.performAll, performAll, perform_bySlices hi, ih]

end Joined

end Decoder

end DialGraphics.Png
