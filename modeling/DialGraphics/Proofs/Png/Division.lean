import DialGraphics.Proofs.Png.ChunksAhead
import DialGraphics.Proofs.Png.StillImage

/-!
# The division of image data

Image data may be divided into chunks in any way. Two files that differ in nothing else give the
same to every operation, as the payloads of each run inflate to the same.
-/

namespace DialGraphics.Png

/-! ### Divided differently -/

/-- The same chunks, but with any runs of image data divided in another way. -/
inductive Redivided : List Chunk → List Chunk → Prop
  | nil : Redivided [] []
  | same (c : Chunk) {chunks other : List Chunk} (rest : Redivided chunks other) :
      Redivided (c :: chunks) (c :: other)
  | run {tag : Tag} {stream : Bytes} (isData : tag = Tag.idat ∨ tag = Tag.fdat)
      (old new : DataRun tag stream) {chunks other : List Chunk} (rest : Redivided chunks other) :
      Redivided (old.chunks ++ chunks) (new.chunks ++ other)

namespace Redivided

variable {chunks other : List Chunk}

theorem refl (chunks : List Chunk) : Redivided chunks chunks := by
  induction chunks with
  | nil => exact .nil
  | cons c chunks ih => exact .same c ih

theorem append_right (h : Redivided chunks other) (tail : List Chunk) :
    Redivided (chunks ++ tail) (other ++ tail) := by
  induction h with
  | nil => exact refl tail
  | same c rest ih => exact .same c ih
  | run isData old new rest ih =>
    rw [List.append_assoc, List.append_assoc]
    exact .run isData old new ih

end Redivided

/-! ### Joined payloads of redivided chunks -/

/-- The joined payloads of the run of a tag in front. -/
def joined? (tag : Tag) (chunks : List Chunk) : Option Bytes :=
  ((chunks.takeWhile (·.tag = tag)).mapM payload?).map List.flatten

theorem joined?_cons {tag : Tag} {c : Chunk} (hc : c.tag = tag) (chunks : List Chunk) :
    joined? tag (c :: chunks)
      = (payload? c).bind fun payload => (joined? tag chunks).map (payload ++ ·) := by
  rw [joined?, joined?, List.takeWhile_cons_of_pos (by simpa using hc), List.mapM_cons]
  cases payload? c with
  | none => rfl
  | some payload =>
    cases (chunks.takeWhile (·.tag = tag)).mapM payload? with
    | none => rfl
    | some payloads => rfl

theorem joined?_cons_of_ne {tag : Tag} {c : Chunk} (hc : c.tag ≠ tag) (chunks : List Chunk) :
    joined? tag (c :: chunks) = some [] := by
  rw [joined?, List.takeWhile_cons_of_neg (by simpa using hc)]
  rfl

namespace DataRun

variable {tag : Tag} {stream : Bytes}

theorem joined?_chunks_append (run : DataRun tag stream) (chunks : List Chunk) :
    joined? tag (run.chunks ++ chunks) = (joined? tag chunks).map (stream ++ ·) := by
  obtain ⟨run, hne, htag, hwritable, hstart, rfl⟩ := run
  simp only
  clear hne hwritable
  induction run with
  | nil =>
    cases h : joined? tag chunks with
    | none => rw [List.nil_append, h]; rfl
    | some payloads => rw [List.nil_append, h]; rfl
  | cons c run ih =>
    have hc := htag c (List.mem_cons_self ..)
    have hpayload : payload? c = some (c.data.drop (payloadStart tag)) := by
      rw [← hc]
      exact payload?_eq_some (by rw [hc]; exact hstart c (List.mem_cons_self ..))
    rw [List.cons_append, joined?_cons hc, hpayload, Option.bind_some,
      ih (fun d hd => htag d (List.mem_cons_of_mem _ hd))
        (fun d hd => hstart d (List.mem_cons_of_mem _ hd)), Option.map_map]
    congr 1
    funext payloads
    exact (List.append_assoc ..).symm

theorem dropWhile_chunks_append (run : DataRun tag stream) (chunks : List Chunk) :
    (run.chunks ++ chunks).dropWhile (·.tag = tag) = chunks.dropWhile (·.tag = tag) :=
  List.dropWhile_append_of_pos fun c hc => decide_eq_true (run.tag_eq c hc)

end DataRun

namespace Redivided

variable {chunks other : List Chunk}

theorem joined?_eq (h : Redivided chunks other) (tag : Tag) :
    joined? tag chunks = joined? tag other
      ∧ Redivided (chunks.dropWhile (·.tag = tag)) (other.dropWhile (·.tag = tag)) := by
  induction h with
  | nil => exact ⟨rfl, .nil⟩
  | @same c chunks other rest ih =>
    by_cases hc : c.tag = tag
    · rw [joined?_cons hc, joined?_cons hc, ih.1, List.dropWhile_cons_of_pos (by simpa using hc),
        List.dropWhile_cons_of_pos (by simpa using hc)]
      exact ⟨rfl, ih.2⟩
    · rw [joined?_cons_of_ne hc, joined?_cons_of_ne hc,
        List.dropWhile_cons_of_neg (by simpa using hc),
        List.dropWhile_cons_of_neg (by simpa using hc)]
      exact ⟨rfl, .same c rest⟩
  | @run runTag stream isData old new chunks other rest ih =>
    by_cases htag : runTag = tag
    · subst htag
      rw [old.joined?_chunks_append, new.joined?_chunks_append, old.dropWhile_chunks_append,
        new.dropWhile_chunks_append, ih.1]
      exact ⟨rfl, ih.2⟩
    · have hrun := Redivided.run isData old new rest
      obtain ⟨first, others, hold, hfirst⟩ := old.chunks_eq_cons
      obtain ⟨newFirst, newOthers, hnew, hnewFirst⟩ := new.chunks_eq_cons
      rw [hold, hnew, List.cons_append, List.cons_append] at hrun ⊢
      have hfirst : first.tag ≠ tag := by rw [hfirst]; exact htag
      have hnewFirst : newFirst.tag ≠ tag := by rw [hnewFirst]; exact htag
      rw [joined?_cons_of_ne hfirst, joined?_cons_of_ne hnewFirst,
        List.dropWhile_cons_of_neg (by simpa using hfirst),
        List.dropWhile_cons_of_neg (by simpa using hnewFirst)]
      exact ⟨rfl, hrun⟩

/-- The first chunks have the same tag, and are the same unless they are image data. -/
theorem cases_cons {c : Chunk} {rest : List Chunk} (h : Redivided (c :: rest) other) :
    ∃ d others, other = d :: others ∧ c.tag = d.tag
      ∧ (c = d ∧ Redivided rest others ∨ c.tag = Tag.idat ∨ c.tag = Tag.fdat) := by
  generalize hchunks : c :: rest = chunks at h
  cases h with
  | nil => cases hchunks
  | @same d chunks other rest =>
    cases hchunks
    exact ⟨c, other, rfl, rfl, .inl ⟨rfl, rest⟩⟩
  | @run tag stream isData old new chunks other rest =>
    obtain ⟨first, others, hold, hfirst⟩ := old.chunks_eq_cons
    obtain ⟨newFirst, newOthers, hnew, hnewFirst⟩ := new.chunks_eq_cons
    rw [hold, List.cons_append] at hchunks
    cases hchunks
    refine ⟨newFirst, newOthers ++ other, by rw [hnew]; rfl, hfirst.trans hnewFirst.symm, .inr ?_⟩
    rw [hfirst]
    exact isData

theorem eq_nil (h : Redivided [] other) : other = [] := by
  generalize hchunks : ([] : List Chunk) = chunks at h
  cases h with
  | nil => rfl
  | same c rest => cases hchunks
  | @run tag stream isData old new chunks other rest =>
    exact absurd (List.append_eq_nil_iff.1 hchunks.symm).1 old.ne_nil

theorem runAgrees {i : Deflate.Inflater} (hi : i.ReadsOneStream) (h : Redivided chunks other) :
    Decoder.RunAgrees i Redivided (payloadRun? chunks) (payloadRun? other) := by
  cases chunks with
  | nil =>
    rw [h.eq_nil]
    exact .cut
  | cons c rest =>
    obtain ⟨d, others, rfl, htag, -⟩ := h.cases_cons
    obtain ⟨hjoined, hrest⟩ := h.joined?_eq c.tag
    simp only [payloadRun?, ← htag]
    simp only [joined?] at hjoined
    generalize ((c :: rest).takeWhile (·.tag = c.tag)).mapM payload? = left at hjoined ⊢
    generalize ((d :: others).takeWhile (·.tag = c.tag)).mapM payload? = right at hjoined ⊢
    cases left with
    | none =>
      cases right with
      | none => exact .cut
      | some slices => cases hjoined
    | some payloads =>
      cases right with
      | none => cases hjoined
      | some slices =>
        have hflat : payloads.flatten = slices.flatten := Option.some.inj hjoined
        refine .whole (fun size => ?_) hrest
        rw [Deflate.Inflater.inflate?_eq hi, Deflate.Inflater.inflate?_eq hi, hflat]

end Redivided

/-! ### Each step of the decoder -/

theorem Header.ofChunk_of_isData {c : Chunk} (hc : c.tag = Tag.idat ∨ c.tag = Tag.fdat) :
    ofChunk c = .error .malformed := by
  have hihdr : c.tag ≠ Tag.ihdr := by rcases hc with hc | hc <;> rw [hc] <;> decide
  simp only [ofChunk, if_pos hihdr]

theorem Metadata.absorb_fdat (h : Header) (m : Metadata) {c : Chunk} (hc : c.tag = Tag.fdat) :
    absorb h m c = .error .malformed := by
  rw [absorb, hc, if_neg (by decide), if_neg (by decide), if_neg (by decide), if_neg (by decide),
    if_pos (by decide)]

theorem Redivided.headerAgrees {chunks other : List Chunk} (hr : Redivided chunks other) :
    Decoder.HeaderAgrees Redivided chunks other := by
  cases chunks with
  | nil =>
    rw [hr.eq_nil]
    exact .missing
  | cons c rest =>
    obtain ⟨d, others, rfl, htag, hsame⟩ := hr.cases_cons
    rcases hsame with ⟨rfl, hrest⟩ | hdata
    · exact Decoder.headerAgrees_cons c hrest
    · exact .refused rest others (Header.ofChunk_of_isData hdata)
        (Header.ofChunk_of_isData (htag ▸ hdata))

theorem Redivided.scanAgrees {chunks other : List Chunk} (hr : Redivided chunks other) (h : Header)
    (m : Metadata) :
    Decoder.ScanAgrees Redivided (Metadata.scan h m chunks) (Metadata.scan h m other) := by
  induction chunks generalizing m other with
  | nil =>
    rw [hr.eq_nil]
    exact .failed m .malformed
  | cons c chunks ih =>
    obtain ⟨d, others, rfl, htag, hsame⟩ := hr.cases_cons
    rcases hsame with ⟨rfl, hrest⟩ | hdata
    · exact Decoder.scanAgrees_cons h m (fun _ => hr) fun next => ih hrest next
    · by_cases hidat : c.tag = Tag.idat
      · rw [Metadata.scan_idat hidat, Metadata.scan_idat (htag ▸ hidat)]
        exact .reached m hr
      · have hfdat : c.tag = Tag.fdat := hdata.resolve_left hidat
        rw [Metadata.scan, if_neg hidat, Metadata.absorb_fdat h m hfdat, Metadata.scan,
          if_neg (htag ▸ hidat), Metadata.absorb_fdat h m (htag ▸ hfdat)]
        exact .failed m .malformed

namespace Decoder

theorem seek_of_isData (h : Header) (first animated : Bool) (control : Option FrameControl)
    {c : Chunk} (hc : c.tag = Tag.idat ∨ c.tag = Tag.fdat) (rest : List Chunk) :
    seek h first animated control (c :: rest)
      = if c.tag = Tag.idat ∧ first ∨ c.tag = Tag.fdat ∧ !first ∧ control.isSome then
          .data control (c :: rest)
        else .failed .malformed := by
  have hfctl : c.tag ≠ Tag.fctl := by rcases hc with hc | hc <;> rw [hc] <;> decide
  have hiend : c.tag ≠ Tag.iend := by rcases hc with hc | hc <;> rw [hc] <;> decide
  have hknown : isKnown c.tag = true := by rcases hc with hc | hc <;> rw [hc] <;> decide
  rw [seek]
  by_cases hidat : c.tag = Tag.idat ∧ first
  · rw [if_pos hidat, if_pos (.inl hidat)]
  · rw [if_neg hidat]
    by_cases hfdat : c.tag = Tag.fdat ∧ !first ∧ control.isSome
    · rw [if_pos hfdat, if_pos (.inr hfdat)]
    · rw [if_neg hfdat, if_neg fun h => hfctl h.1, if_neg hiend, if_pos hknown,
        if_neg fun h => h.elim hidat hfdat]

theorem seekAgrees_of_redivided {i : Deflate.Inflater} (hi : i.ReadsOneStream)
    {chunks other : List Chunk} (hr : Redivided chunks other) (h : Header) (first animated : Bool)
    (control : Option FrameControl) :
    SeekAgrees i Redivided (seek h first animated control chunks)
      (seek h first animated control other) := by
  induction chunks generalizing control other with
  | nil =>
    rw [hr.eq_nil]
    exact .failed .malformed
  | cons c chunks ih =>
    obtain ⟨d, others, rfl, htag, hsame⟩ := hr.cases_cons
    rcases hsame with ⟨rfl, hrest⟩ | hdata
    · exact seekAgrees_cons h first animated control hrest (fun _ => hr.runAgrees hi) (ih hrest)
    · rw [seek_of_isData h first animated control hdata,
        seek_of_isData h first animated control (htag ▸ hdata), ← htag]
      split
      · exact .data control (hr.runAgrees hi)
      · exact .failed .malformed

def redivision {i : Deflate.Inflater} (hi : i.ReadsOneStream) : Simulation i where
  unread := Redivided
  behind := Redivided
  header_agrees := Redivided.headerAgrees
  scan_agrees := Redivided.scanAgrees
  seek_agrees := seekAgrees_of_redivided hi

/-- However the image data of a file is divided, and whatever follows the chunks that are told
apart, every operation gives the same and leaves the decoder in the same state. The inflater may be
any that reads its slices as one stream, and the streams need not be valid. -/
theorem performAll_redivided {i : Deflate.Inflater} (hi : i.ReadsOneStream)
    {chunks other : List Chunk} (hr : Redivided chunks other) (hchunks : ∀ c ∈ chunks, c.IsWritable)
    (hother : ∀ c ∈ other, c.IsWritable) (tail : Bytes) (ops : List Operation) :
    let run := BySlices.performAll i (ofBytes (Chunk.encodeFile chunks ++ tail)) ops
    let otherRun := BySlices.performAll i (ofBytes (Chunk.encodeFile other ++ tail)) ops
    run.1 = otherRun.1 ∧ run.2.stage = otherRun.2.stage ∧ run.2.error = otherRun.2.error
      ∧ run.2.header = otherRun.2.header ∧ run.2.metadata = otherRun.2.metadata
      ∧ run.2.framesRemaining = otherRun.2.framesRemaining := by
  intro run otherRun
  have hm : (redivision hi).Matches (ofBytes (Chunk.encodeFile chunks ++ tail))
      (ofBytes (Chunk.encodeFile other ++ tail)) :=
    Simulation.matches_ofBytes (hr.append_right _) hchunks hother
  exact (hm.performAll (isCoherent_ofBytes _) ops).same

/-- The stream of a small image, cut within its checksum. -/
def cutRun : DataRun Tag.idat StillFile.smallStream.toBytes where
  chunks := [⟨Tag.idat, StillFile.smallStream.toBytes.dropLast.dropLast, 0⟩, ⟨Tag.idat, [3, 4], 0⟩]
  ne_nil := by decide
  tag_eq := by decide
  writable := by decide
  start_le := by decide
  joined := by decide

def cutFile : List Chunk :=
  ⟨Tag.ihdr, StillFile.smallFile.header.toData, 0⟩
    :: (StillFile.smallFile.palette ++ (cutRun.chunks ++ [StillFile.smallFile.lastChunk]))

theorem performAll_redivided_cutFile :
    (BySlices.performAll Deflate.Inflater.rereading (ofBytes (Chunk.encodeFile cutFile ++ []))
        [.frame]).1
      = [.frame (.ok ⟨[0x12, 0x30, 0x21, 0x40], 2, 0, 0, 3, 2, 0, .keep, .source⟩)] := by
  have hr : Redivided cutFile StillFile.smallFile.chunks :=
    .same _ (.same _ (.run (.inl rfl) cutRun StillFile.smallRun (.refl _)))
  have hi := Deflate.Inflater.readsOneStream_rereading
  obtain ⟨houtcomes, -⟩ := performAll_redivided hi hr (by decide)
    StillFile.smallFile.isWritable_of_mem_chunks [] [.frame]
  have hframe : BySlices.nextFrame Deflate.Inflater.rereading
        (ofBytes (Chunk.encodeFile StillFile.smallFile.chunks))
      = (.ok StillFile.smallFile.frame, StillFile.smallFile.done) :=
    (nextFrame_of_ok (unfailed_ofBytes _) StillFile.smallFile.readMetadata_ofBytes rfl).trans
      (StillFile.smallFile.decodeNext_loaded hi)
  rw [houtcomes, List.append_nil]
  simp only [BySlices.performAll, BySlices.perform, hframe]
  rfl

end Decoder

end DialGraphics.Png
