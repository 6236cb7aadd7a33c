import DialGraphics.Proofs.Png.Division
import DialGraphics.Proofs.Png.FirstFrame

/-!
# Image data of the exact size

A frame is decoded only if its stream gives exactly the lines of its rows, each with a filter that
exists. Anything more, anything less, and a stream that ends before its checksum does, is malformed,
wherever the stream is divided into chunks.
-/

namespace DialGraphics

/-! ### Streams that are cut -/

namespace Deflate.StoredEncoding

variable {content : Bytes}

/-- What a part of the stream leaves behind its blocks is a part of the checksum. -/
theorem align_append_of_body? (e : StoredEncoding content) {size : Nat} {front rest : Bytes}
    {result : Output × Bits} (hjoined : front ++ rest = e.toBytes)
    (hbody : Zlib.body? size front = some result) : result.2.align ++ rest = e.checksum := by
  have hwhole := Zlib.body?_append hbody rest
  rw [hjoined, toBytes, Zlib.body?, if_pos e.isHeader, e.blocks?_body] at hwhole
  split at hwhole
  · have hbits : Bits.ofBytes e.checksum = result.2.append rest :=
      congrArg Prod.snd (Option.some.inj hwhole)
    have hused : result.2.used = 0 := (congrArg Bits.used hbits).symm
    rw [Bits.align, if_pos hused]
    exact (congrArg Bits.bytes hbits).symm
  · cases hwhole

/-- A stream that is cut before its end gives nothing. -/
theorem inflate?_take (e : StoredEncoding content) (size : Nat) {n : Nat}
    (hn : n < e.toBytes.length) : Zlib.inflate? size (e.toBytes.take n) = none := by
  have hcut : Zlib.contents? size (e.toBytes.take n) = none := by
    rw [Option.eq_none_iff_forall_not_mem]
    intro bytes hbytes
    obtain ⟨result, hbody, hchecksum, -⟩ := Zlib.contents?_eq_some_iff.1 hbytes
    -- a whole checksum in front of the cut leaves nothing to cut off
    have hrest := congrArg List.length
      (e.align_append_of_body? (List.take_append_drop n e.toBytes) hbody)
    rw [List.length_append, List.length_drop, e.length_checksum] at hrest
    unfold Zlib.checksumSize at hchecksum
    omega
  rw [Zlib.inflate?_eq_filter, hcut]
  rfl

end Deflate.StoredEncoding

namespace Png

/-! ### Files of a given stream -/

theorem Chunk.head?_split (bytes : Bytes) :
    (split bytes).1.head? = (pull? bytes).map Prod.fst := by
  rw [split]
  split
  · rename_i hpull
    rw [hpull]
    rfl
  · rename_i hpull
    rw [hpull]
    rfl

/-- A file with a given stream, which need not be valid, as its first image data. What is in front
of the stream is anything that is taken in, what is behind it is anything at all. -/
structure ImageFile (stream : Bytes) where
  header : Header
  accepted : header.IsAccepted
  allocatable : filteredSize (header.rowStride header.width) header.height < allocationLimit
  headerCrc : Nat
  headerCrc_lt : headerCrc < wordLimit
  front : List Chunk
  front_writable : ∀ c ∈ front, c.IsWritable
  front_tag : ∀ c ∈ front, c.tag ≠ Tag.idat
  metadata : Metadata
  absorbed : front.foldlM (Metadata.absorb header) {} = .ok metadata
  complete : metadata.isComplete header = true
  run : DataRun Tag.idat stream
  behind : Bytes
  behind_tag : ∀ c rest, Chunk.pull? behind = some (c, rest) → c.tag ≠ Tag.idat

namespace ImageFile

variable {stream : Bytes}

def chunks (f : ImageFile stream) : List Chunk :=
  ⟨Tag.ihdr, f.header.toData, f.headerCrc⟩ :: (f.front ++ f.run.chunks)

def toBytes (f : ImageFile stream) : Bytes := Chunk.encodeFile f.chunks ++ f.behind

def rest (f : ImageFile stream) : List Chunk := (Chunk.split f.behind).1

/-- The decoder when the metadata is read. -/
def loaded (f : ImageFile stream) : Decoder where
  signed := true
  chunks := f.run.chunks ++ f.rest
  stage := .loaded
  header := some f.header
  metadata := f.metadata
  totalFrames := f.metadata.totalFrames

theorem isWritable_of_mem_chunks (f : ImageFile stream) : ∀ c ∈ f.chunks, c.IsWritable := by
  intro c hc
  rcases List.mem_cons.1 hc with rfl | hc
  · exact ⟨by rw [Header.length_toData]; decide, f.headerCrc_lt⟩
  · rcases List.mem_append.1 hc with hc | hc
    · exact f.front_writable c hc
    · exact f.run.writable c hc

theorem tag_of_mem_head?_rest (f : ImageFile stream) : ∀ c ∈ f.rest.head?, c.tag ≠ Tag.idat := by
  intro c hc
  rw [rest, Chunk.head?_split] at hc
  obtain ⟨⟨d, others⟩, hpull, rfl⟩ := Option.map_eq_some_iff.1 hc
  exact f.behind_tag d others hpull

theorem readMetadata_ofBytes (f : ImageFile stream) :
    (Decoder.ofBytes f.toBytes).readMetadata = (.ok (), f.loaded) := by
  obtain ⟨first, others, hrun, hfirst⟩ := f.run.chunks_eq_cons
  have hheader :=
    Decoder.readHeader_encodeFile_append f.accepted f.isWritable_of_mem_chunks f.behind
  have hscan : Metadata.scan f.header {} ((f.front ++ f.run.chunks) ++ f.rest)
      = (f.metadata, .ok (f.run.chunks ++ f.rest)) := by
    rw [List.append_assoc, Metadata.scan_append f.front_tag f.absorbed, hrun]
    exact Metadata.scan_idat hfirst _
  change Metadata.scan f.header {} ((f.front ++ f.run.chunks) ++ (Chunk.split f.behind).1) = _
    at hscan
  rw [toBytes, chunks, Decoder.readMetadata_of_ok (.inl (Decoder.stage_ofBytes _)) hheader]
  simp only [Decoder.scanMetadata, hscan, f.complete, if_true]
  rfl

theorem isCovering_metadata (f : ImageFile stream) : f.metadata.IsCovering f.header :=
  Metadata.keeps_of_foldlM_absorb Metadata.isCovering_of_absorb f.absorbed
    (Metadata.isCovering_empty f.header)

section Calls

variable {i : Deflate.Inflater} (hi : i.ReadsOneStream)

include hi

/-- The frame is what the stream decodes to. If that is nothing, the decoder has failed. -/
theorem nextFrame_ofBytes_eq (f : ImageFile stream) :
    ∃ d, Decoder.BySlices.nextFrame i (Decoder.ofBytes f.toBytes)
        = (Frame.decode f.header f.metadata.control stream, d)
      ∧ ∀ e, Frame.decode f.header f.metadata.control stream = .error e →
        d.stage = .failed ∧ d.error = some e := by
  have hframes : f.metadata.HasFrames :=
    Metadata.keeps_of_foldlM_absorb Metadata.hasFrames_of_absorb f.absorbed fun _ h => nomatch h
  have hmore : f.loaded.framesDecoded < f.loaded.totalFrames := hframes.totalFrames_pos
  have hseek : Decoder.seek f.header (f.loaded.framesDecoded == 0)
        f.loaded.metadata.animation.isSome f.loaded.metadata.control f.loaded.chunks
      = .data f.metadata.control (f.run.chunks ++ f.rest) := by
    obtain ⟨first, others, hrun, hfirst⟩ := f.run.chunks_eq_cons
    show Decoder.seek f.header true f.metadata.animation.isSome f.metadata.control
      (f.run.chunks ++ f.rest) = _
    rw [hrun, List.cons_append, Decoder.seek, if_pos ⟨hfirst, rfl⟩]
  rw [Decoder.nextFrame_of_ok (Decoder.unfailed_ofBytes _) f.readMetadata_ofBytes rfl,
    Decoder.decodeNext_of_run hi hmore hseek
      (f.run.dataRun?_chunks_append f.tag_of_mem_head?_rest)]
  cases Frame.decode f.header f.metadata.control stream with
  | error e =>
    refine ⟨_, rfl, ?_⟩
    rintro _ ⟨⟩
    exact ⟨rfl, rfl⟩
  | ok frame =>
    refine ⟨_, rfl, ?_⟩
    rintro _ ⟨⟩

/-- A frame is had exactly if the stream gives the lines of the canvas. -/
theorem nextFrame_isOk_iff (f : ImageFile stream) :
    (∃ frame, (Decoder.BySlices.nextFrame i (Decoder.ofBytes f.toBytes)).1 = .ok frame)
      ↔ ∃ lines, Deflate.Zlib.inflate?
            (filteredSize (f.header.rowStride f.header.width) f.header.height) stream = some lines
          ∧ AreLines (f.header.rowStride f.header.width) f.header.height lines := by
  obtain ⟨d, hnext, -⟩ := f.nextFrame_ofBytes_eq hi
  obtain ⟨place, hdecode⟩ := decode_of_covers f.isCovering_metadata stream
  rw [hnext, ← decodeRows_isOk_iff (f.accepted.rowStride_pos f.accepted.width_pos)
    f.accepted.height_pos f.allocatable]
  simp only [hdecode, map_eq_ok_iff]
  constructor
  · rintro ⟨frame, rows, hrows, -⟩
    exact ⟨rows, hrows⟩
  · rintro ⟨rows, hrows⟩
    exact ⟨_, rows, hrows, rfl⟩

/-- Without a frame the stream is malformed, and the decoder has failed. -/
theorem nextFrame_eq_malformed (f : ImageFile stream)
    (h : ¬ ∃ frame, (Decoder.BySlices.nextFrame i (Decoder.ofBytes f.toBytes)).1 = .ok frame) :
    let call := Decoder.BySlices.nextFrame i (Decoder.ofBytes f.toBytes)
    call.1 = .error .malformed ∧ call.2.stage = .failed ∧ call.2.error = some .malformed := by
  obtain ⟨d, hnext, hfailed⟩ := f.nextFrame_ofBytes_eq hi
  obtain ⟨place, hdecode⟩ := decode_of_covers f.isCovering_metadata stream
  rw [hnext] at h ⊢
  have hmalformed : Frame.decode f.header f.metadata.control stream = .error .malformed := by
    rcases decodeRows_cases f.allocatable stream with ⟨rows, hrows⟩ | hrows
    · exact absurd ⟨_, by rw [hdecode, hrows]; rfl⟩ h
    · rw [hdecode, hrows]
      rfl
  exact ⟨hmalformed, hfailed _ hmalformed⟩

end Calls

/-- A frame is had from stored bytes exactly if they are the lines of the canvas, and otherwise the
file is malformed and the decoder has failed. So it is if the stream is cut before the end of its
checksum. Padding, checksum, what follows the stream and its division into chunks do not matter, and
the inflater may be any that reads its slices as one stream. -/
theorem nextFrame_exact_size {i : Deflate.Inflater} (hi : i.ReadsOneStream) {payload : Bytes}
    (e : Deflate.StoredEncoding payload) (trailing : Bytes)
    (f : ImageFile (e.toBytes ++ trailing)) :
    let call := Decoder.BySlices.nextFrame i (Decoder.ofBytes f.toBytes)
    let isImage := AreLines (f.header.rowStride f.header.width) f.header.height payload
    ((∃ frame, call.1 = .ok frame) ↔ isImage)
      ∧ (¬ isImage → call.1 = .error .malformed ∧ call.2.stage = .failed
        ∧ call.2.error = some .malformed)
      ∧ ∀ n < e.toBytes.length, ∀ cut : ImageFile (e.toBytes.take n),
        let call := Decoder.BySlices.nextFrame i (Decoder.ofBytes cut.toBytes)
        call.1 = .error .malformed ∧ call.2.stage = .failed
          ∧ call.2.error = some .malformed := by
  intro call isImage
  have hiff : (∃ frame, call.1 = .ok frame) ↔ isImage := by
    rw [f.nextFrame_isOk_iff hi, e.inflate?_toBytes_append]
    constructor
    · rintro ⟨lines, hlines, himage⟩
      split at hlines
      · cases hlines
        exact himage
      · cases hlines
    · intro himage
      exact ⟨payload, if_pos himage.1, himage⟩
  refine ⟨hiff, ?_, ?_⟩
  · intro hnot
    rw [← hiff] at hnot
    exact f.nextFrame_eq_malformed hi hnot
  · intro n hn cut
    refine cut.nextFrame_eq_malformed hi ?_
    rw [cut.nextFrame_isOk_iff hi, e.inflate?_take _ hn]
    exact fun ⟨_, h, _⟩ => nomatch h

/-- The lines of a small image, and a byte too many. -/
def excessPayload : Bytes := StillFile.smallImage.lines ++ [0]

def smallEncoding : Deflate.StoredEncoding StillFile.smallImage.lines where
  method := 0x18
  flags := 0x19
  isHeader := by decide
  blocks := [⟨31, by decide, StillFile.smallImage.lines.take 2, by decide⟩,
    ⟨1, by decide, [], by decide⟩]
  last := ⟨5, by decide, StillFile.smallImage.lines.drop 2, StillFile.smallStream.last_le⟩
  checksum := [5, 6, 7, 8]
  length_checksum := rfl
  joined := by decide

def excessEncoding : Deflate.StoredEncoding excessPayload where
  method := 0x78
  flags := 0x9C
  isHeader := by decide
  blocks := [⟨1, by decide, StillFile.smallImage.lines, by decide⟩]
  last := ⟨1, by decide, [0], by decide⟩
  checksum := [5, 6, 7, 8]
  length_checksum := rfl
  joined := by decide

/-- An indexed image with a transparent colour, a chunk that is skipped, and its stream in one
chunk or, behind an empty one, in two. Some bytes that are no chunk follow. -/
def smallFile (stream : Bytes) (n : Nat) (hlength : stream.length < wordLimit) :
    ImageFile stream where
  header := StillFile.smallFile.header
  accepted := StillFile.smallFile.accepted
  allocatable := StillFile.smallFile.fits
  headerCrc := 300
  headerCrc_lt := by decide
  front := [⟨Tag.plte, [255, 0, 0, 0, 255, 0], 7⟩, ⟨Tag.trns, [9], 8⟩,
    ⟨Tag.ofChars 't' 'I' 'M' 'E', [1], 9⟩]
  front_writable := by decide
  front_tag := by decide
  metadata := { palette := [⟨255, 0, 0, 9⟩, ⟨0, 255, 0, 255⟩] }
  absorbed := rfl
  complete := rfl
  run :=
    { chunks := [⟨Tag.idat, [], 0⟩, ⟨Tag.idat, stream.take n, 1⟩, ⟨Tag.idat, stream.drop n, 2⟩]
      ne_nil := List.cons_ne_nil _ _
      tag_eq := by simp
      writable := by
        simp only [List.forall_mem_cons, Chunk.IsWritable, List.length_take, List.length_drop]
        exact ⟨by decide, ⟨by omega, by decide⟩, ⟨by omega, by decide⟩, fun _ h => nomatch h⟩
      start_le := fun _ _ => Nat.zero_le _
      joined := by simp [payloadStart, show Tag.idat ≠ Tag.fdat by decide] }
  behind := [0, 0, 0]
  behind_tag := fun _ _ h => nomatch h

theorem nextFrame_exact_size_smallFile :
    (∃ frame, (Decoder.BySlices.nextFrame Deflate.Inflater.rereading
        (Decoder.ofBytes (smallFile (smallEncoding.toBytes ++ [8, 9]) 24 (by decide)).toBytes)).1
          = .ok frame)
      ∧ (Decoder.BySlices.nextFrame Deflate.Inflater.rereading
        (Decoder.ofBytes (smallFile (smallEncoding.toBytes.take 26) 7 (by decide)).toBytes)).1
          = .error .malformed
      ∧ (Decoder.BySlices.nextFrame Deflate.Inflater.rereading
        (Decoder.ofBytes (smallFile (excessEncoding.toBytes ++ []) 13 (by decide)).toBytes)).1
          = .error .malformed := by
  have hi := Deflate.Inflater.readsOneStream_rereading
  obtain ⟨hiff, -, hcut⟩ := nextFrame_exact_size hi smallEncoding [8, 9]
    (smallFile (smallEncoding.toBytes ++ [8, 9]) 24 (by decide))
  obtain ⟨-, hexcess, -⟩ := nextFrame_exact_size hi excessEncoding []
    (smallFile (excessEncoding.toBytes ++ []) 13 (by decide))
  have himage : AreLines 2 2 StillFile.smallImage.lines := by decide
  have htoo : ¬ AreLines 2 2 excessPayload := by decide
  exact ⟨hiff.2 himage, (hcut 26 (by decide) _).1, (hexcess htoo).1⟩

end ImageFile

end Png

end DialGraphics
