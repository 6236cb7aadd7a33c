import DialGraphics.Proofs.Png.FirstError

/-!
# Chunks ahead

Two decoders may differ in the chunks ahead of them and in nothing else. A simulation says for one
step each that this cannot be told: for the step to the header, the one through the metadata, and
the one to the data of a frame, where the payloads may differ as long as they inflate to the same.
It follows that no run of operations tells it.
-/

namespace DialGraphics.Png.Decoder

/-! ### One step -/

section Steps

variable (i : Deflate.Inflater) (behind : List Chunk → List Chunk → Prop)

/-- The first chunks are missing on both sides, or are refused alike, or give the same header. -/
inductive HeaderAgrees : List Chunk → List Chunk → Prop
  | missing : HeaderAgrees [] []
  | refused {c d : Chunk} {e : PngError} (rest others : List Chunk)
      (left : Header.ofChunk c = .error e) (right : Header.ofChunk d = .error e) :
      HeaderAgrees (c :: rest) (d :: others)
  | accepted {c d : Chunk} {h : Header} {rest others : List Chunk}
      (left : Header.ofChunk c = .ok h) (right : Header.ofChunk d = .ok h)
      (after : behind rest others) : HeaderAgrees (c :: rest) (d :: others)

inductive ScanAgrees : Metadata × Except PngError (List Chunk) →
    Metadata × Except PngError (List Chunk) → Prop
  | failed (m : Metadata) (e : PngError) : ScanAgrees (m, .error e) (m, .error e)
  | reached (m : Metadata) {rest others : List Chunk} (after : behind rest others) :
      ScanAgrees (m, .ok rest) (m, .ok others)

/-- Both runs are cut short, or their payloads inflate to the same, whatever size is asked for. -/
inductive RunAgrees : Option (List Bytes × List Chunk) → Option (List Bytes × List Chunk) → Prop
  | cut : RunAgrees none none
  | whole {payloads slices : List Bytes} {rest others : List Chunk}
      (same : ∀ size, i.inflate? size payloads = i.inflate? size slices)
      (after : behind rest others) : RunAgrees (some (payloads, rest)) (some (slices, others))

inductive SeekAgrees : Seek → Seek → Prop
  | failed (e : PngError) : SeekAgrees (.failed e) (.failed e)
  | ended (control : Option FrameControl) {rest others : List Chunk} (after : behind rest others) :
      SeekAgrees (.ended control rest) (.ended control others)
  | data (control : Option FrameControl) {chunks other : List Chunk}
      (run : RunAgrees i behind (payloadRun? chunks) (payloadRun? other)) :
      SeekAgrees (.data control chunks) (.data control other)

variable {i} {behind} {rest others : List Chunk}

/-- Behind the same first chunk the steps agree if they do so behind it. -/
theorem headerAgrees_cons (c : Chunk) (hrest : behind rest others) :
    HeaderAgrees behind (c :: rest) (c :: others) := by
  cases hc : Header.ofChunk c with
  | error e => exact .refused rest others hc hc
  | ok h => exact .accepted hc hc hrest

theorem scanAgrees_cons {c : Chunk} (h : Header) (m : Metadata)
    (hidat : c.tag = Tag.idat → behind (c :: rest) (c :: others))
    (hrest : ∀ next, ScanAgrees behind (Metadata.scan h next rest) (Metadata.scan h next others)) :
    ScanAgrees behind (Metadata.scan h m (c :: rest)) (Metadata.scan h m (c :: others)) := by
  rw [Metadata.scan, Metadata.scan]
  split
  · rename_i hc
    exact .reached m (hidat hc)
  · cases Metadata.absorb h m c with
    | error e => exact .failed m e
    | ok next => exact hrest next

theorem seekAgrees_cons {c : Chunk} (h : Header) (first animated : Bool)
    (control : Option FrameControl) (hafter : behind rest others)
    (hdata : c.tag = Tag.idat ∨ c.tag = Tag.fdat →
      RunAgrees i behind (payloadRun? (c :: rest)) (payloadRun? (c :: others)))
    (hrest : ∀ next, SeekAgrees i behind (seek h first animated next rest)
      (seek h first animated next others)) :
    SeekAgrees i behind (seek h first animated control (c :: rest))
      (seek h first animated control (c :: others)) := by
  rw [seek, seek]
  split
  · rename_i hidat
    exact .data control (hdata (.inl hidat.1))
  · split
    · rename_i hfdat
      exact .data control (hdata (.inr hfdat.1))
    · split
      · cases FrameControl.ofChunk c h.width h.height with
        | error e => exact .failed e
        | ok f => exact hrest (some f)
      · split
        · exact .ended control hafter
        · split
          · exact .failed .malformed
          · split
            · exact hrest control
            · exact .failed .unsupportedChunk

end Steps

/-- Two relations between the chunks ahead, one for the time before the header is read and one for
the time after, that every step keeps. -/
structure Simulation (i : Deflate.Inflater) where
  unread : List Chunk → List Chunk → Prop
  behind : List Chunk → List Chunk → Prop
  header_agrees : ∀ {chunks other}, unread chunks other → HeaderAgrees behind chunks other
  scan_agrees : ∀ {chunks other}, behind chunks other → ∀ h m,
    ScanAgrees behind (Metadata.scan h m chunks) (Metadata.scan h m other)
  seek_agrees : ∀ {chunks other}, behind chunks other → ∀ h first animated control,
    SeekAgrees i behind (seek h first animated control chunks)
      (seek h first animated control other)

/-! ### Decoders that differ in the chunks ahead only -/

def withChunks (d : Decoder) (chunks : List Chunk) : Decoder := { d with chunks := chunks }

@[simp] theorem withChunks_chunks (d : Decoder) (chunks : List Chunk) :
    (d.withChunks chunks).chunks = chunks := rfl

@[simp] theorem withChunks_metadata (d : Decoder) (chunks : List Chunk) :
    (d.withChunks chunks).metadata = d.metadata := rfl

namespace Simulation

variable {i : Deflate.Inflater} (S : Simulation i)

def Ahead : Option Header → List Chunk → List Chunk → Prop
  | none => S.unread
  | some _ => S.behind

/-- The decoders are the same but for the chunks ahead of them. As long as they have not failed,
those are related. -/
inductive Matches : Decoder → Decoder → Prop
  | intro (d : Decoder) {chunks other : List Chunk}
      (ahead : d.stage ≠ .failed → S.Ahead d.header chunks other) :
      Matches (d.withChunks chunks) (d.withChunks other)

/-- The same is given, and such decoders are left behind. -/
inductive Agree {α : Type} : α × Decoder → α × Decoder → Prop
  | intro (result : α) {d e : Decoder} (after : S.Matches d e) : Agree (result, d) (result, e)

variable {S} {α : Type} {d e : Decoder} {chunks other : List Chunk}

theorem agree_fail (result : α) (d : Decoder) (cause : PngError) (chunks other : List Chunk) :
    S.Agree (result, (d.withChunks chunks).fail cause)
      (result, (d.withChunks other).fail cause) :=
  .intro result (.intro (d.fail cause) fun h => absurd rfl h)

theorem agree_of_behind {h : Header} (result : α) (hheader : d.header = some h)
    (hbehind : S.behind chunks other) :
    S.Agree (result, d.withChunks chunks) (result, d.withChunks other) :=
  .intro result (.intro d fun _ => by rw [hheader]; exact hbehind)

theorem readHeader_withChunks (hstage : d.stage ≠ .failed) (hheader : d.header = none)
    (chunks : List Chunk) :
    (d.withChunks chunks).readHeader =
      if !d.signed then (.error .notPng, (d.withChunks chunks).fail .notPng)
      else
        match chunks with
        | [] => (.error .malformed, (d.withChunks chunks).fail .malformed)
        | c :: rest =>
          match Header.ofChunk c with
          | .error e => (.error e, (d.withChunks rest).fail e)
          | .ok h => (.ok h, { d with stage := .header, header := some h }.withChunks rest) := by
  obtain ⟨signed, own, stage, header, metadata, total, decoded, error⟩ := d
  subst hheader
  cases stage with
  | failed => exact absurd rfl hstage
  | _ => cases signed <;> cases chunks <;> rfl

theorem Matches.readHeader (hm : S.Matches d e) : S.Agree d.readHeader e.readHeader := by
  obtain ⟨d, ahead⟩ := hm
  rename_i chunks other
  by_cases hstage : d.stage = .failed
  · rw [readHeader_of_failed (d := d.withChunks chunks) hstage,
      readHeader_of_failed (d := d.withChunks other) hstage]
    exact .intro _ (.intro d ahead)
  · cases hheader : d.header with
    | some h =>
      rw [readHeader_of_some (d := d.withChunks chunks) hstage hheader,
        readHeader_of_some (d := d.withChunks other) hstage hheader]
      exact .intro _ (.intro d ahead)
    | none =>
      have hunread : S.unread chunks other := by
        have hahead := ahead hstage
        rwa [hheader] at hahead
      rw [readHeader_withChunks hstage hheader, readHeader_withChunks hstage hheader]
      split
      · exact agree_fail _ d _ _ _
      · cases S.header_agrees hunread with
        | missing => exact agree_fail _ d _ _ _
        | refused rest others left right =>
          simp only [left, right]
          exact agree_fail _ d _ _ _
        | @accepted c other h rest others left right after =>
          simp only [left, right]
          exact agree_of_behind _ rfl after

theorem agree_scanMetadata {h : Header} (hheader : d.header = some h)
    (hbehind : S.behind chunks other) :
    S.Agree ((d.withChunks chunks).scanMetadata h) ((d.withChunks other).scanMetadata h) := by
  simp only [scanMetadata, withChunks_metadata, withChunks_chunks]
  have hscan := S.scan_agrees hbehind h d.metadata
  generalize Metadata.scan h d.metadata chunks = left at hscan
  generalize Metadata.scan h d.metadata other = right at hscan
  cases hscan with
  | failed m cause => exact agree_fail _ { d with metadata := m } _ _ _
  | reached m after =>
    dsimp only
    split
    · exact agree_of_behind
        (d := { d with metadata := m, totalFrames := m.totalFrames, stage := .loaded }) _ hheader
        after
    · exact agree_fail _ { d with metadata := m } _ _ _

theorem Matches.stage_eq (hm : S.Matches d e) : e.stage = d.stage := by
  cases hm
  rfl

theorem Matches.header_eq (hm : S.Matches d e) : e.header = d.header := by
  cases hm
  rfl

theorem Matches.retainedError_eq (hm : S.Matches d e) : e.retainedError = d.retainedError := by
  cases hm
  rfl

theorem Matches.readMetadata (hm : S.Matches d e) : S.Agree d.readMetadata e.readMetadata := by
  have hstage := hm.stage_eq
  have hloaded : d.stage = .loaded ∨ d.stage = .decoded →
      S.Agree d.readMetadata e.readMetadata := by
    intro hloaded
    rw [readMetadata_of_loaded hloaded, readMetadata_of_loaded (hstage.symm ▸ hloaded)]
    exact .intro _ hm
  have hscan : d.stage = .fresh ∨ d.stage = .header → S.Agree d.readMetadata e.readMetadata := by
    intro hearly
    have hother : e.stage = .fresh ∨ e.stage = .header := hstage.symm ▸ hearly
    have hheader := hm.readHeader
    generalize hr : d.readHeader = r at hheader
    generalize hs : e.readHeader = s at hheader
    obtain ⟨result, after⟩ := hheader
    cases result with
    | error cause =>
      rw [readMetadata_of_error hearly hr, readMetadata_of_error hother hs]
      exact .intro _ after
    | ok h =>
      rw [readMetadata_of_ok hearly hr, readMetadata_of_ok hother hs]
      obtain ⟨next, ahead⟩ := after
      obtain ⟨hsome, hrank⟩ := readHeader_eq_ok hearly hr
      change next.header = some h at hsome
      have hunfailed : next.stage ≠ .failed := by
        intro hfailed
        change next.stage.rank ≤ Stage.header.rank at hrank
        rw [hfailed] at hrank
        exact absurd hrank (by decide)
      have hbehind := ahead hunfailed
      rw [hsome] at hbehind
      exact agree_scanMetadata hsome hbehind
  cases hs : d.stage with
  | failed =>
    rw [readMetadata_of_failed hs, readMetadata_of_failed (hstage.trans hs),
      hm.retainedError_eq]
    exact .intro _ hm
  | loaded => exact hloaded (.inl hs)
  | decoded => exact hloaded (.inr hs)
  | fresh => exact hscan (.inl hs)
  | header => exact hscan (.inr hs)

theorem decodeNext_withChunks (i : Deflate.Inflater) (d : Decoder) (h : Header)
    (chunks : List Chunk) :
    BySlices.decodeNext i (d.withChunks chunks) h =
      if d.totalFrames ≤ d.framesDecoded then (.error .endOfStream, d.withChunks chunks)
      else
        match seek h (d.framesDecoded == 0) d.metadata.animation.isSome d.metadata.control
            chunks with
        | .failed e => (.error e, (d.withChunks chunks).fail e)
        | .ended control rest =>
          (.error .endOfStream,
            { d with
              metadata := { d.metadata with control := control }
              totalFrames := d.framesDecoded }.withChunks rest)
        | .data control ahead =>
          match payloadRun? ahead with
          | none =>
            (.error .malformed,
              ({ d with metadata := { d.metadata with control := none } }.withChunks chunks).fail
                .malformed)
          | some (payloads, rest) =>
            match Frame.decodeLines (i.inflate? · payloads) h control with
            | .error e =>
              (.error e,
                ({ d with metadata := { d.metadata with control := none } }.withChunks rest).fail e)
            | .ok frame =>
              (.ok frame,
                { d with
                  metadata := { d.metadata with control := none }
                  framesDecoded := d.framesDecoded + 1
                  stage := .decoded }.withChunks rest) := by
  simp only [BySlices.decodeNext, decodeRun_eq]
  rfl

theorem agree_decodeNext {h : Header} (hheader : d.header = some h)
    (hbehind : S.behind chunks other) :
    S.Agree (BySlices.decodeNext i (d.withChunks chunks) h)
      (BySlices.decodeNext i (d.withChunks other) h) := by
  rw [decodeNext_withChunks, decodeNext_withChunks]
  by_cases hend : d.totalFrames ≤ d.framesDecoded
  · rw [if_pos hend, if_pos hend]
    exact agree_of_behind _ hheader hbehind
  · rw [if_neg hend, if_neg hend]
    have hseek := S.seek_agrees hbehind h (d.framesDecoded == 0) d.metadata.animation.isSome
      d.metadata.control
    generalize seek h (d.framesDecoded == 0) d.metadata.animation.isSome d.metadata.control chunks
      = left at hseek
    generalize seek h (d.framesDecoded == 0) d.metadata.animation.isSome d.metadata.control other
      = right at hseek
    cases hseek with
    | failed cause => exact agree_fail _ d _ _ _
    | ended control after =>
      exact agree_of_behind
        (d := { d with
          metadata := { d.metadata with control := control }, totalFrames := d.framesDecoded })
        _ hheader after
    | @data control ahead otherAhead run =>
      dsimp only
      generalize payloadRun? ahead = leftRun at run
      generalize payloadRun? otherAhead = rightRun at run
      cases run with
      | cut => exact agree_fail _ { d with metadata := { d.metadata with control := none } } _ _ _
      | @whole payloads slices _ _ same after =>
        have hlines : (i.inflate? · payloads) = (i.inflate? · slices) := funext same
        dsimp only
        rw [hlines]
        cases Frame.decodeLines (i.inflate? · slices) h control with
        | error cause =>
          exact agree_fail _ { d with metadata := { d.metadata with control := none } } _ _ _
        | ok frame =>
          exact agree_of_behind
            (d := { d with
              metadata := { d.metadata with control := none }
              framesDecoded := d.framesDecoded + 1
              stage := .decoded })
            _ hheader after

theorem Matches.nextFrame (hm : S.Matches d e) (hd : d.IsCoherent) :
    S.Agree (BySlices.nextFrame i d) (BySlices.nextFrame i e) := by
  by_cases hfailed : d.stage = .failed
  · have hother : e.stage = .failed := hm.stage_eq.trans hfailed
    simp only [BySlices.nextFrame, hfailed, hother, hm.retainedError_eq]
    exact .intro _ hm
  · have hother : e.stage ≠ .failed := fun h => hfailed (hm.stage_eq.symm.trans h)
    have hmetadata := hm.readMetadata
    generalize hr : d.readMetadata = r at hmetadata
    generalize hs : e.readMetadata = s at hmetadata
    obtain ⟨result, after⟩ := hmetadata
    cases result with
    | error cause =>
      rw [nextFrame_of_error hfailed hr, nextFrame_of_error hother hs]
      exact .intro _ after
    | ok _ =>
      obtain ⟨-, hloaded, ⟨h, hheader⟩, -⟩ := loaded_of_readMetadata hd hr
      rw [nextFrame_of_ok hfailed hr hheader,
        nextFrame_of_ok hother hs (after.header_eq.trans hheader)]
      obtain ⟨next, ahead⟩ := after
      change next.header = some h at hheader
      have hbehind := ahead (unfailed_of_loaded hloaded).1
      rw [hheader] at hbehind
      exact agree_decodeNext hheader hbehind

/-! ### Runs -/

theorem Agree.map {β : Type} {x y : α × Decoder} (h : S.Agree x y) (f : α → β) :
    S.Agree (f x.1, x.2) (f y.1, y.2) := by
  cases h with
  | intro result after => exact .intro _ after

theorem Matches.perform (hm : S.Matches d e) (hd : d.IsCoherent) (op : Operation) :
    S.Agree (BySlices.perform i d op) (BySlices.perform i e op) := by
  cases op with
  | header => exact hm.readHeader.map _
  | metadata => exact hm.readMetadata.map _
  | frame => exact (hm.nextFrame hd).map _

theorem Matches.performAll (hm : S.Matches d e) (hd : d.IsCoherent) (ops : List Operation) :
    S.Agree (BySlices.performAll i d ops) (BySlices.performAll i e ops) := by
  induction ops generalizing d e with
  | nil => exact .intro _ hm
  | cons op ops ih =>
    have hcoherent := (perform_moves i hd op).isCoherent
    have hop := hm.perform hd op
    simp only [BySlices.performAll]
    generalize BySlices.perform i d op = r at hop hcoherent
    generalize BySlices.perform i e op = s at hop
    obtain ⟨outcome, after⟩ := hop
    exact (ih after hcoherent).map _

/-- What can be seen of a run and of the decoder it leaves. -/
theorem Agree.same {x y : α × Decoder} (h : S.Agree x y) :
    x.1 = y.1 ∧ x.2.stage = y.2.stage ∧ x.2.error = y.2.error ∧ x.2.header = y.2.header
      ∧ x.2.metadata = y.2.metadata ∧ x.2.framesRemaining = y.2.framesRemaining := by
  obtain ⟨result, after⟩ := h
  cases after
  exact ⟨rfl, rfl, rfl, rfl, rfl, rfl⟩

theorem matches_ofBytes {tail : Bytes}
    (hunread : S.unread (chunks ++ (Chunk.split tail).1) (other ++ (Chunk.split tail).1))
    (hchunks : ∀ c ∈ chunks, c.IsWritable) (hother : ∀ c ∈ other, c.IsWritable) :
    S.Matches (ofBytes (Chunk.encodeFile chunks ++ tail))
      (ofBytes (Chunk.encodeFile other ++ tail)) := by
  rw [ofBytes_encodeFile_append hchunks, ofBytes_encodeFile_append hother]
  exact .intro { signed := true, chunks := [] } fun _ => hunread

end Simulation

end DialGraphics.Png.Decoder
