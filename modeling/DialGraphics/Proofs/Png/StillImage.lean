import DialGraphics.Proofs.Png.FirstError
import DialGraphics.Proofs.Png.FrameData
import DialGraphics.Proofs.Png.HeaderCheck

/-!
# Still images

A file of one image, with its compressed rows in any number of data chunks, decodes to the rows
that it was written from, and has no second frame.
-/

namespace DialGraphics.Png

namespace Metadata

/-! ### Up to the image data -/

theorem scan_idat {h : Header} {m : Metadata} {c : Chunk} (hc : c.tag = Tag.idat)
    (rest : List Chunk) : scan h m (c :: rest) = (m, .ok (c :: rest)) := by
  rw [scan, if_pos hc]

theorem scan_absorbed {h : Header} {m m' : Metadata} {c : Chunk} (hc : c.tag ≠ Tag.idat)
    (ha : absorb h m c = .ok m') (rest : List Chunk) :
    scan h m (c :: rest) = scan h m' rest := by
  rw [scan, if_neg hc, ha]

theorem scan_append {h : Header} {m m' : Metadata} {front : List Chunk}
    (hfront : ∀ c ∈ front, c.tag ≠ Tag.idat) (hm : front.foldlM (absorb h) m = .ok m')
    (rest : List Chunk) : scan h m (front ++ rest) = scan h m' rest := by
  induction front generalizing m with
  | nil =>
    cases hm
    rfl
  | cons c front ih =>
    obtain ⟨next, hc, hnext⟩ := bind_eq_ok_iff.1 hm
    rw [List.cons_append, scan_absorbed (hfront c (List.mem_cons_self ..)) hc]
    exact ih (fun d hd => hfront d (List.mem_cons_of_mem _ hd)) hnext

theorem length_paletteEntries (data : Bytes) :
    (paletteEntries data).length = data.length / 3 := by
  rw [← Bytes.length_wholeGroups 3 data, paletteEntries]
  have hgroups : ∀ group ∈ Bytes.wholeGroups 3 data, group.length = 3 :=
    fun group hg => Bytes.length_of_mem_wholeGroups hg
  generalize Bytes.wholeGroups 3 data = groups at hgroups
  induction groups with
  | nil => rfl
  | cons group groups ih =>
    have hgroup := hgroups group (List.mem_cons_self ..)
    have hrest := ih fun g hg => hgroups g (List.mem_cons_of_mem _ hg)
    match group, hgroup with
    | [r, g, b], _ =>
      simp only [List.filterMap_cons, List.length_cons]
      rw [hrest]

def IsPaletteData (data : Bytes) : Prop :=
  data.length % 3 = 0 ∧ 1 ≤ data.length / 3 ∧ data.length / 3 ≤ 256

instance (data : Bytes) : Decidable (IsPaletteData data) :=
  inferInstanceAs (Decidable (_ ∧ _ ∧ _))

theorem absorb_palette {h : Header} {m : Metadata} {c : Chunk} (hcolor : h.color = .indexed)
    (hm : m.palette = []) (hc : c.tag = Tag.plte) (hdata : IsPaletteData c.data) :
    absorb h m c = .ok { m with palette := paletteEntries c.data } := by
  obtain ⟨hwhole, hmin, hmax⟩ := hdata
  have hgood : ¬ ((!m.palette.isEmpty) = true ∨ c.data.length % 3 ≠ 0
      ∨ c.data.length / 3 = 0 ∨ 256 < c.data.length / 3
      ∨ h.color = .gray ∨ h.color = .grayAlpha) := by
    rw [hcolor, hm]
    simp only [List.isEmpty_nil, Bool.not_true, Bool.false_eq_true, reduceCtorEq, or_false,
      false_or, not_or]
    omega
  simp only [absorb, withPalette]
  rw [if_pos hc, if_neg hgood, if_pos hcolor]

theorem palette_isEmpty_eq_false {data : Bytes} (hdata : IsPaletteData data) :
    (paletteEntries data).isEmpty = false := by
  have hlength := length_paletteEntries data
  have hmin := hdata.2.1
  cases hentries : paletteEntries data with
  | nil =>
    rw [hentries, List.length_nil] at hlength
    omega
  | cons c cs => rfl

end Metadata

/-- The palette chunks of a file: an indexed image has one, any other image has none. -/
structure ArePalette (h : Header) (chunks : List Chunk) : Prop where
  nil : h.color ≠ .indexed → chunks = []
  one : h.color = .indexed → ∃ c, chunks = [c] ∧ c.tag = Tag.plte
    ∧ Metadata.IsPaletteData c.data ∧ c.crc < wordLimit

namespace ArePalette

variable {h : Header} {chunks : List Chunk}

theorem isWritable_of_mem (hp : ArePalette h chunks) : ∀ c ∈ chunks, c.IsWritable := by
  intro c hc
  by_cases hcolor : h.color = .indexed
  · obtain ⟨d, hchunks, -, hdata, hcrc⟩ := hp.one hcolor
    rw [hchunks, List.mem_singleton] at hc
    rw [hc]
    have hmax := hdata.2.2
    refine ⟨?_, hcrc⟩
    unfold wordLimit
    omega
  · rw [hp.nil hcolor] at hc
    cases hc

theorem tag_of_mem (hp : ArePalette h chunks) : ∀ c ∈ chunks, c.tag = Tag.plte := by
  intro c hc
  by_cases hcolor : h.color = .indexed
  · obtain ⟨d, hchunks, htag, -⟩ := hp.one hcolor
    rw [hchunks, List.mem_singleton] at hc
    rw [hc, htag]
  · rw [hp.nil hcolor] at hc
    cases hc

def entries (chunks : List Chunk) : List Rgba :=
  chunks.flatMap fun c => Metadata.paletteEntries c.data

theorem foldlM_absorb (hp : ArePalette h chunks) {m : Metadata} (hm : m.palette = []) :
    chunks.foldlM (Metadata.absorb h) m = .ok { m with palette := entries chunks } := by
  by_cases hcolor : h.color = .indexed
  · obtain ⟨c, hchunks, htag, hdata, -⟩ := hp.one hcolor
    rw [hchunks, List.foldlM_cons, Metadata.absorb_palette hcolor hm htag hdata, entries,
      List.flatMap_singleton]
    rfl
  · rw [hp.nil hcolor, entries, List.flatMap_nil, ← hm]
    rfl

theorem entries_isEmpty_eq_false (hp : ArePalette h chunks) (hcolor : h.color = .indexed) :
    (entries chunks).isEmpty = false := by
  obtain ⟨c, hchunks, -, hdata, -⟩ := hp.one hcolor
  rw [hchunks, entries, List.flatMap_singleton]
  exact Metadata.palette_isEmpty_eq_false hdata

end ArePalette

/-! ### One step of a decoder -/

namespace Decoder

theorem readHeader_encodeFile_append {h : Header} (ha : h.IsAccepted) {crc : Nat}
    {rest : List Chunk} (hw : ∀ c ∈ ⟨Tag.ihdr, h.toData, crc⟩ :: rest, c.IsWritable)
    (tail : Bytes) :
    (ofBytes (Chunk.encodeFile (⟨Tag.ihdr, h.toData, crc⟩ :: rest) ++ tail)).readHeader
      = (.ok h,
        { signed := true
          chunks := rest ++ (Chunk.split tail).1
          stage := .header
          header := some h }) := by
  rw [ofBytes_encodeFile_append hw]
  simp only [readHeader, Bool.not_true, Bool.false_eq_true, if_false, List.cons_append,
    Header.ofChunk_toData ha crc]

theorem readHeader_encodeFile {h : Header} (ha : h.IsAccepted) {crc : Nat}
    {rest : List Chunk} (hw : ∀ c ∈ ⟨Tag.ihdr, h.toData, crc⟩ :: rest, c.IsWritable) :
    (ofBytes (Chunk.encodeFile (⟨Tag.ihdr, h.toData, crc⟩ :: rest))).readHeader
      = (.ok h, { signed := true, chunks := rest, stage := .header, header := some h }) := by
  have happend := readHeader_encodeFile_append ha hw []
  rwa [List.append_nil, Chunk.split_nil, List.append_nil] at happend

section Joined

variable {i : Deflate.Inflater} (hi : i.ReadsOneStream)

include hi

/-- Where image data comes next, the frame is what the stream decodes to. -/
theorem decodeNext_of_run {d : Decoder} {h : Header} {control : Option FrameControl}
    {chunks rest : List Chunk} {stream : Bytes} (hmore : d.framesDecoded < d.totalFrames)
    (hseek : seek h (d.framesDecoded == 0) d.metadata.animation.isSome d.metadata.control d.chunks
      = .data control chunks)
    (hrun : dataRun? chunks = some (stream, rest)) :
    BySlices.decodeNext i d h = match Frame.decode h control stream with
      | .error e =>
        (.error e,
          { d with metadata := { d.metadata with control := none }, chunks := rest }.fail e)
      | .ok frame =>
        (.ok frame,
          { d with
            metadata := { d.metadata with control := none }
            chunks := rest
            framesDecoded := d.framesDecoded + 1
            stage := .decoded }) := by
  rw [decodeNext_bySlices hi, decodeNext, if_neg (Nat.not_le.2 hmore), hseek]
  cases hframe : Frame.decode h control stream with
  | error e => simp only [hrun, hframe]
  | ok frame => simp only [hrun, hframe]

theorem decodeNext_of_data {d : Decoder} {h : Header} {control : Option FrameControl}
    {chunks rest : List Chunk} {stream : Bytes} {frame : Frame}
    (hmore : d.framesDecoded < d.totalFrames)
    (hseek : seek h (d.framesDecoded == 0) d.metadata.animation.isSome d.metadata.control d.chunks
      = .data control chunks)
    (hrun : dataRun? chunks = some (stream, rest))
    (hframe : Frame.decode h control stream = .ok frame) :
    BySlices.decodeNext i d h = (.ok frame,
      { d with
        metadata := { d.metadata with control := none }
        chunks := rest
        framesDecoded := d.framesDecoded + 1
        stage := .decoded }) := by
  rw [decodeNext_of_run hi hmore hseek hrun, hframe]

end Joined

end Decoder

/-! ### Files of one image -/

/-- A still image as it is written to a file. The chunks may have any checksums. -/
structure StillFile where
  header : Header
  accepted : header.IsAccepted
  fits : filteredSize (header.rowStride header.width) header.height < allocationLimit
  image : FilteredImage header header.width header.height
  stream : Deflate.StoredStream image.lines
  headerCrc : Nat
  headerCrc_lt : headerCrc < wordLimit
  palette : List Chunk
  palette_nil : header.color ≠ .indexed → palette = []
  palette_one : header.color = .indexed → ∃ c, palette = [c] ∧ c.tag = Tag.plte
    ∧ Metadata.IsPaletteData c.data ∧ c.crc < wordLimit
  run : List Chunk
  run_ne_nil : run ≠ []
  run_tag : ∀ c ∈ run, c.tag = Tag.idat
  run_writable : ∀ c ∈ run, c.IsWritable
  joined : (run.map Chunk.data).flatten = stream.toBytes
  endCrc : Nat
  endCrc_lt : endCrc < wordLimit

namespace StillFile

def lastChunk (f : StillFile) : Chunk := ⟨Tag.iend, [], f.endCrc⟩

def chunks (f : StillFile) : List Chunk :=
  ⟨Tag.ihdr, f.header.toData, f.headerCrc⟩ :: (f.palette ++ (f.run ++ [f.lastChunk]))

def toBytes (f : StillFile) : Bytes := Chunk.encodeFile f.chunks

def frame (f : StillFile) : Frame :=
  ⟨f.image.data, f.header.rowStride f.header.width, 0, 0, f.header.width, f.header.height, 0,
    .keep, .source⟩

def metadata (f : StillFile) : Metadata :=
  { palette := f.palette.flatMap fun c => Metadata.paletteEntries c.data }

theorem arePalette (f : StillFile) : ArePalette f.header f.palette :=
  ⟨f.palette_nil, f.palette_one⟩

theorem isWritable_of_mem_chunks (f : StillFile) : ∀ c ∈ f.chunks, c.IsWritable := by
  intro c hc
  rcases List.mem_cons.1 hc with rfl | hc
  · exact ⟨by rw [Header.length_toData]; decide, f.headerCrc_lt⟩
  · rcases List.mem_append.1 hc with hc | hc
    · exact f.arePalette.isWritable_of_mem c hc
    · rcases List.mem_append.1 hc with hc | hc
      · exact f.run_writable c hc
      · rw [List.mem_singleton.1 hc]
        exact ⟨Nat.zero_lt_succ _, f.endCrc_lt⟩

theorem scan_chunks (f : StillFile) :
    Metadata.scan f.header {} (f.palette ++ (f.run ++ [f.lastChunk]))
        = (f.metadata, .ok (f.run ++ [f.lastChunk]))
      ∧ f.metadata.isComplete f.header = true := by
  obtain ⟨first, others, hrun⟩ := List.exists_cons_of_ne_nil f.run_ne_nil
  have hfirst : first.tag = Tag.idat := f.run_tag first (by rw [hrun]; exact List.mem_cons_self ..)
  have hpalette : f.palette.foldlM (Metadata.absorb f.header) {} = .ok f.metadata :=
    f.arePalette.foldlM_absorb rfl
  have hfront : ∀ c ∈ f.palette, c.tag ≠ Tag.idat := by
    intro c hc
    rw [f.arePalette.tag_of_mem c hc]
    decide
  constructor
  · rw [Metadata.scan_append hfront hpalette, hrun]
    exact Metadata.scan_idat hfirst _
  · by_cases hcolor : f.header.color = .indexed
    · have hentries : f.metadata.palette.isEmpty = false :=
        f.arePalette.entries_isEmpty_eq_false hcolor
      simp only [Metadata.isComplete, hentries, Bool.and_false]
      rfl
    · simp only [Metadata.isComplete, beq_eq_false_iff_ne.2 hcolor]
      rfl

/-! ### Decoding -/

def opened (f : StillFile) : Decoder where
  signed := true
  chunks := f.palette ++ (f.run ++ [f.lastChunk])
  stage := .header
  header := some f.header

def loaded (f : StillFile) : Decoder where
  signed := true
  chunks := f.run ++ [f.lastChunk]
  stage := .loaded
  header := some f.header
  metadata := f.metadata
  totalFrames := 1

def done (f : StillFile) : Decoder where
  signed := true
  chunks := [f.lastChunk]
  stage := .decoded
  header := some f.header
  metadata := f.metadata
  totalFrames := 1
  framesDecoded := 1

theorem readHeader_ofBytes (f : StillFile) :
    (Decoder.ofBytes f.toBytes).readHeader = (.ok f.header, f.opened) :=
  Decoder.readHeader_encodeFile f.accepted f.isWritable_of_mem_chunks

theorem scanMetadata_opened (f : StillFile) :
    f.opened.scanMetadata f.header = (.ok (), f.loaded) := by
  obtain ⟨hscan, hcomplete⟩ := f.scan_chunks
  simp only [Decoder.scanMetadata, opened, hscan, hcomplete, if_true]
  rfl

theorem readMetadata_ofBytes (f : StillFile) :
    (Decoder.ofBytes f.toBytes).readMetadata = (.ok (), f.loaded) := by
  simp only [Decoder.readMetadata, Decoder.stage_ofBytes, f.readHeader_ofBytes,
    f.scanMetadata_opened]

theorem decodeNext_loaded {i : Deflate.Inflater} (hi : i.ReadsOneStream) (f : StillFile) :
    Decoder.BySlices.decodeNext i f.loaded f.header = (.ok f.frame, f.done) := by
  obtain ⟨first, others, hrun⟩ := List.exists_cons_of_ne_nil f.run_ne_nil
  have hfirst : first.tag = Tag.idat := f.run_tag first (by rw [hrun]; exact List.mem_cons_self ..)
  -- one frame is expected and none is decoded, so the data chunks in front are looked for
  have hmore : f.loaded.framesDecoded < f.loaded.totalFrames := Nat.zero_lt_one
  have hseek : Decoder.seek f.header (f.loaded.framesDecoded == 0)
        f.loaded.metadata.animation.isSome f.loaded.metadata.control f.loaded.chunks
      = .data none (f.run ++ [f.lastChunk]) := by
    show Decoder.seek f.header true false none (f.run ++ [f.lastChunk]) = _
    rw [hrun, List.cons_append, Decoder.seek, if_pos ⟨hfirst, rfl⟩]
  have hlast : ∀ c ∈ [f.lastChunk].head?, c.tag ≠ Tag.idat := by
    intro c hc
    cases hc
    show Tag.iend ≠ Tag.idat
    decide
  have hdata : dataRun? (f.run ++ [f.lastChunk]) = some (f.stream.toBytes, [f.lastChunk]) := by
    rw [← f.joined]
    exact dataRun?_append f.run_ne_nil f.run_tag hlast (mapM_payload?_idat f.run_tag)
  have hrows : decodeRows f.header f.header.width f.header.height f.stream.toBytes
      = .ok f.image.data :=
    f.image.decodeRows_storedStream f.stream (f.accepted.rowStride_pos f.accepted.width_pos)
      f.accepted.height_pos f.fits
  have hframe : Frame.decode f.header none f.stream.toBytes = .ok f.frame := by
    simp only [Frame.decode, hrows, Except.map]
    rfl
  rw [Decoder.decodeNext_of_data hi hmore hseek hdata hframe]
  rfl

/-- Whatever the filters, the blocks of the stream and its division into data chunks are, the
first frame has the rows of the image, and there is no other frame. The inflater may be any that
reads its slices as one stream. -/
theorem nextFrame_ofBytes {i : Deflate.Inflater} (hi : i.ReadsOneStream) (f : StillFile) :
    ∃ d, Decoder.BySlices.nextFrame i (Decoder.ofBytes f.toBytes) = (.ok f.frame, d)
      ∧ d.stage = .decoded
      ∧ Decoder.BySlices.nextFrame i d = (.error .endOfStream, d) := by
  refine ⟨f.done, ?_, rfl, rfl⟩
  rw [Decoder.nextFrame_of_ok (Decoder.unfailed_ofBytes _) f.readMetadata_ofBytes rfl]
  exact f.decodeNext_loaded hi

def smallImage : FilteredImage ⟨3, 2, 4, .indexed⟩ 3 2 where
  rows := [(.sub, [0x12, 0x30]), (.paeth, [0x21, 0x40])]
  length_rows := rfl
  length_row := by decide
  padded := by decide

def smallStream : Deflate.StoredStream smallImage.lines where
  blocks := [smallImage.lines.take 2, []]
  last := smallImage.lines.drop 2
  checksum := [1, 2, 3, 4]
  joined := by decide
  blocks_le := by decide
  last_le := by decide
  length_checksum := rfl

def smallFile : StillFile where
  header := ⟨3, 2, 4, .indexed⟩
  accepted := ⟨by decide, by decide, by decide, by decide, by decide, by decide⟩
  fits := by decide
  image := smallImage
  stream := smallStream
  headerCrc := 0
  headerCrc_lt := by decide
  palette := [⟨Tag.plte, [255, 0, 0, 0, 255, 0], 7⟩]
  palette_nil := fun h => absurd rfl h
  palette_one := fun _ => ⟨_, rfl, rfl, by decide, by decide⟩
  run := [⟨Tag.idat, smallStream.toBytes.take 3, 0⟩, ⟨Tag.idat, [], 1⟩,
    ⟨Tag.idat, smallStream.toBytes.drop 3, 2⟩]
  run_ne_nil := by decide
  run_tag := by decide
  run_writable := by decide
  joined := by decide
  endCrc := 5
  endCrc_lt := by decide

def smallRun : DataRun Tag.idat smallStream.toBytes where
  chunks := smallFile.run
  ne_nil := smallFile.run_ne_nil
  tag_eq := smallFile.run_tag
  writable := smallFile.run_writable
  start_le := fun _ _ => Nat.zero_le _
  joined := smallFile.joined

theorem nextFrame_ofBytes_smallFile :
    ∃ d, Decoder.BySlices.nextFrame Deflate.Inflater.rereading (Decoder.ofBytes smallFile.toBytes)
        = (.ok ⟨[0x12, 0x30, 0x21, 0x40], 2, 0, 0, 3, 2, 0, .keep, .source⟩, d)
      ∧ d.stage = .decoded
      ∧ Decoder.BySlices.nextFrame Deflate.Inflater.rereading d = (.error .endOfStream, d) :=
  nextFrame_ofBytes Deflate.Inflater.readsOneStream_rereading smallFile

end StillFile

end DialGraphics.Png
