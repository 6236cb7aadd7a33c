import DialGraphics.Proofs.Png.AnimatedImage
import DialGraphics.Proofs.Png.FirstFrame
import DialGraphics.Proofs.Png.ImpliedSteps

/-!
# The bounds of frames

Whatever the bytes are and whatever is asked for: a frame that is given lies on the canvas, and its
data are whole rows of its width. The first frame is the canvas itself.
-/

namespace DialGraphics.Png

/-! ### One frame -/

/-- What a frame can be relied on for, given the header of its image. -/
structure Frame.IsWellFormed (h : Header) (frame : Frame) : Prop where
  width_pos : 1 ≤ frame.width
  height_pos : 1 ≤ frame.height
  right_le : frame.x + frame.width ≤ h.width
  bottom_le : frame.y + frame.height ≤ h.height
  right_lt : frame.x + frame.width < wordLimit
  bottom_lt : frame.y + frame.height < wordLimit
  rowStride_eq : frame.rowStride = (h.bitsPerPixel * frame.width + 7) / 8
  length_data : frame.data.length = frame.rowStride * frame.height
  isZeroPadded : ∀ row < frame.height, IsZeroPadded (h.bitsPerPixel * frame.width)
    ((frame.data.drop (row * frame.rowStride)).take frame.rowStride)

theorem Frame.isInside_of_region {h : Header} (ha : h.IsAccepted) {control : Option FrameControl}
    (hcontrol : ∀ f ∈ control, f.fits h.width h.height = true) {frame : Frame}
    (hregion : frame.region = h.region control) :
    0 < frame.width ∧ 0 < frame.height ∧ frame.x + frame.width ≤ h.width
      ∧ frame.y + frame.height ≤ h.height := by
  cases control with
  | none =>
    simp only [region, Header.region, Header.canvas, Prod.mk.injEq] at hregion
    obtain ⟨hx, hy, hwidth, hheight⟩ := hregion
    rw [hx, hy, hwidth, hheight, Nat.zero_add, Nat.zero_add]
    exact ⟨ha.width_pos, ha.height_pos, Nat.le_refl _, Nat.le_refl _⟩
  | some f =>
    simp only [region, Header.region, Prod.mk.injEq] at hregion
    obtain ⟨hx, hy, hwidth, hheight⟩ := hregion
    rw [hx, hy, hwidth, hheight]
    exact FrameControl.fits_iff.1 (hcontrol f rfl)

theorem Frame.isWellFormed_of_decodeLines {i : Deflate.Inflater} {h : Header} (ha : h.IsAccepted)
    {control : Option FrameControl} (hcontrol : ∀ f ∈ control, f.fits h.width h.height = true)
    {payloads : List Bytes} {frame : Frame}
    (hd : decodeLines (i.inflate? · payloads) h control = .ok frame) : frame.IsWellFormed h := by
  obtain ⟨hrows, hstride, hregion⟩ := decodeLines_eq_ok hd
  obtain ⟨hwidth, hheight, hright, hbottom⟩ := isInside_of_region ha hcontrol hregion
  have hmaxWidth := ha.width_le
  have hmaxHeight := ha.height_le
  have hmax : Header.maxSide < wordLimit := by decide
  exact {
    width_pos := hwidth
    height_pos := hheight
    right_le := hright
    bottom_le := hbottom
    right_lt := by omega
    bottom_lt := by omega
    rowStride_eq := hstride
    length_data := by rw [hstride, length_of_decodeLines hrows]
    isZeroPadded := fun row hrow => by
      rw [hstride]
      exact isZeroPadded_of_decodeLines hrows (ha.rowStride_pos hwidth) hrow }

namespace Decoder

theorem fits_of_seek {h : Header} {first animated : Bool} {control next : Option FrameControl}
    {chunks rest : List Chunk} (hs : seek h first animated control chunks = .data next rest)
    (hcontrol : ∀ f ∈ control, f.fits h.width h.height = true) :
    ∀ f ∈ next, f.fits h.width h.height = true := by
  have hend : ∀ f ∈ (seek h first animated control chunks).control?,
      f.fits h.width h.height = true := control_of_seek FrameControl.fits_of_ofChunk hcontrol
  rw [hs] at hend
  exact hend

/-! ### One call -/

/-- What holds between two frames. Frame control that was read with the metadata is gone after the
first frame, so it is always about the whole canvas. -/
structure IsReady (h : Header) (d : Decoder) : Prop extends d.IsCoherent where
  accepted : h.IsAccepted
  loaded : d.stage = .loaded ∨ d.stage = .decoded
  header : d.header = some h
  control : d.metadata.IsCovering h
  opening : d.framesDecoded = 0 → ∃ c rest, d.chunks = c :: rest ∧ c.tag = Tag.idat

/-- From now on every call for a frame gives the same error. -/
def IsStuck (i : Deflate.Inflater) (d : Decoder) : Prop :=
  ∃ e next, BySlices.nextFrame i d = (.error e, next)
    ∧ BySlices.nextFrame i next = (.error e, next)

theorem isReady_of_readMetadata {bytes : Bytes} {next : Decoder}
    (hr : (ofBytes bytes).readMetadata = (.ok (), next)) :
    ∃ h, (ofBytes bytes).readHeader.1 = .ok h ∧ IsReady h next ∧ next.framesDecoded = 0 := by
  obtain ⟨hcoherent, hloaded, -, -⟩ := loaded_of_readMetadata (isCoherent_ofBytes bytes) hr
  have hfresh : (ofBytes bytes).stage = .fresh ∨ (ofBytes bytes).stage = .header :=
    .inl (stage_ofBytes bytes)
  cases hheader : (ofBytes bytes).readHeader with
  | mk result opened =>
    cases result with
    | error e =>
      rw [readMetadata_of_error hfresh hheader] at hr
      cases hr
    | ok h =>
      rw [readMetadata_of_ok hfresh hheader] at hr
      obtain ⟨haccepted, chunks, rfl⟩ := readHeader_ofBytes_eq_ok hheader
      obtain ⟨hframes, hsome, hcontrol, hchunks⟩ :=
        scanMetadata_eq_ok (Metadata.isCovering_empty h) hr
      exact ⟨h, rfl, ⟨hcoherent, haccepted, hloaded, hsome, hcontrol, fun _ => hchunks⟩, hframes⟩

/-- A call for a frame gives an error for good, or a frame that can be relied on. -/
theorem IsReady.nextFrame_cases (i : Deflate.Inflater) {h : Header} {d : Decoder}
    (hd : IsReady h d) :
    d.IsStuck i ∨ ∃ frame next, BySlices.nextFrame i d = (.ok frame, next) ∧ IsReady h next
      ∧ next.framesDecoded = d.framesDecoded + 1 ∧ frame.IsWellFormed h
      ∧ (d.framesDecoded = 0 → frame.region = h.canvas) := by
  have hleads := nextFrame_leads i hd.toIsCoherent
  cases hn : BySlices.nextFrame i d with
  | mk result next =>
    rw [hn] at hleads
    cases result with
    | error e => exact .inl ⟨e, next, hn, hleads.nextFrame_of_error⟩
    | ok frame =>
      rw [nextFrame_eq_decodeNext hd.loaded hd.header] at hn
      have hfirst := fun hzero => region_of_first hzero hd.control (hd.opening hzero) hn
      obtain ⟨control, chunks, payloads, rest, hseek, hframe, rfl⟩ := decodeNext_eq_ok hn
      have hcontrol := fits_of_seek hseek fun f hf =>
        FrameControl.fits_of_covers hd.accepted.width_pos hd.accepted.height_pos (hd.control f hf)
      exact .inr ⟨frame, _, rfl,
        { toIsCoherent := hleads.of_ok.1
          accepted := hd.accepted
          loaded := .inr rfl
          header := hd.header
          control := fun _ hf => nomatch hf
          opening := fun hzero => absurd hzero (Nat.succ_ne_zero _) },
        rfl, Frame.isWellFormed_of_decodeLines hd.accepted hcontrol hframe, hfirst⟩

/-! ### Runs -/

def framesOf (results : List (Except PngError Frame)) : List Frame :=
  results.filterMap Except.toOption

/-- What holds when the calls for a frame have given some frames so far. The next such call is one
on a decoder that has decoded as many, or nothing comes any more. -/
structure HasGiven (i : Deflate.Inflater) (bytes : Bytes) (frames : List Frame) (d : Decoder) :
    Prop where
  next : d.IsStuck i ∨ ∃ h ready, (ofBytes bytes).readHeader.1 = .ok h ∧ IsReady h ready
    ∧ BySlices.nextFrame i d = BySlices.nextFrame i ready ∧ ready.framesDecoded = frames.length
  wellFormed : ∀ frame ∈ frames, ∃ h,
    (ofBytes bytes).readHeader.1 = .ok h ∧ frame.IsWellFormed h
  first : ∀ frame ∈ frames.head?, ∃ h,
    (ofBytes bytes).readHeader.1 = .ok h ∧ frame.region = h.canvas

theorem hasGiven_ofBytes (i : Deflate.Inflater) (bytes : Bytes) :
    HasGiven i bytes [] (ofBytes bytes) where
  next := by
    have hd := isCoherent_ofBytes bytes
    have hleads := readMetadata_leads hd
    cases hr : (ofBytes bytes).readMetadata with
    | mk result next =>
      rw [hr] at hleads
      cases result with
      | error e =>
        exact .inl ⟨e, next, nextFrame_of_error (unfailed_ofBytes bytes) hr,
          hleads.nextFrame_of_error⟩
      | ok _ =>
        obtain ⟨h, hheader, hready, hframes⟩ := isReady_of_readMetadata hr
        have hnext := nextFrame_after_readMetadata (i := i) hd
        rw [hr] at hnext
        exact .inr ⟨h, next, hheader, hready, hnext.symm, hframes⟩
  wellFormed := fun _ hf => nomatch hf
  first := fun _ hf => nomatch hf

theorem HasGiven.step {i : Deflate.Inflater} {bytes : Bytes} {frames : List Frame} {d : Decoder}
    (hd : HasGiven i bytes frames d) :
    HasGiven i bytes (frames ++ (BySlices.nextFrame i d).1.toOption.toList)
      (BySlices.nextFrame i d).2 := by
  have hstuck : d.IsStuck i → HasGiven i bytes
      (frames ++ (BySlices.nextFrame i d).1.toOption.toList) (BySlices.nextFrame i d).2 := by
    rintro ⟨e, next, hn, hagain⟩
    rw [hn]
    refine ⟨.inl ⟨e, next, hagain, hagain⟩, ?_, ?_⟩
    · simpa [Except.toOption] using hd.wellFormed
    · simpa [Except.toOption] using hd.first
  rcases hd.next with hnone | ⟨h, ready, hheader, hready, hsame, hcount⟩
  · exact hstuck hnone
  · rcases hready.nextFrame_cases i with ⟨e, next, hn, hagain⟩
      | ⟨frame, next, hn, hafter, hdecoded, hwell, hfirst⟩
    · exact hstuck ⟨e, next, hsame.trans hn, hagain⟩
    · rw [hsame, hn]
      refine ⟨.inr ⟨h, next, hheader, hafter, rfl, ?_⟩, ?_, ?_⟩
      · rw [hdecoded, hcount]
        show frames.length + 1 = (frames ++ [frame]).length
        rw [List.length_append, List.length_singleton]
      · intro f hf
        rcases List.mem_append.1 hf with hf | hf
        · exact hd.wellFormed f hf
        · cases List.mem_singleton.1 hf
          exact ⟨h, hheader, hwell⟩
      · intro f hf
        cases frames with
        | nil =>
          cases hf
          exact ⟨h, hheader, hfirst hcount⟩
        | cons first others => exact hd.first f hf

theorem hasGiven_decodeFrames (i : Deflate.Inflater) (bytes : Bytes) (n : Nat) :
    HasGiven i bytes (framesOf (BySlices.decodeFrames i (ofBytes bytes) n).1)
      (BySlices.decodeFrames i (ofBytes bytes) n).2 := by
  induction n with
  | zero => exact hasGiven_ofBytes i bytes
  | succ n ih =>
    rw [BySlices.decodeFrames, framesOf, filterMap_concat]
    exact ih.step

/-- Every frame that any calls on any bytes give is well-formed, and the first of them is the whole
canvas. The inflater may be any. -/
theorem frames_well_formed (i : Deflate.Inflater) (bytes : Bytes) (calls : List Call) :
    let frames := framesOf (frameResults (BySlices.answerAll i (ofBytes bytes) calls).1)
    (∀ frame ∈ frames, ∃ h, (ofBytes bytes).readHeader.1 = .ok h ∧ frame.IsWellFormed h)
      ∧ ∀ frame ∈ frames.head?, ∃ h, (ofBytes bytes).readHeader.1 = .ok h
        ∧ (frame.x, frame.y, frame.width, frame.height) = (0, 0, h.width, h.height) := by
  intro frames
  have hresults := (frameResults_answerAll i (isCoherent_ofBytes bytes) calls).1
  have hgiven := hasGiven_decodeFrames i bytes (calls.count frameCall)
  rw [← hresults] at hgiven
  exact ⟨hgiven.wellFormed, hgiven.first⟩

theorem frames_well_formed_smallAnimation :
    framesOf (frameResults (BySlices.answerAll Deflate.Inflater.rereading
        (ofBytes AnimatedFile.smallAnimation.toBytes)
        [frameCall, .framesRemaining, frameCall]).1)
        = [⟨[0x12, 0x30, 0x21, 0x40], 2, 0, 0, 3, 2, 20, .keep, .source⟩,
          ⟨[0x20], 1, 2, 1, 1, 1, 70, .previous, .over⟩]
      ∧ ∃ h, (ofBytes AnimatedFile.smallAnimation.toBytes).readHeader.1 = .ok h
        ∧ Frame.IsWellFormed h ⟨[0x20], 1, 2, 1, 1, 1, 70, .previous, .over⟩ := by
  have hframes : framesOf (frameResults (BySlices.answerAll Deflate.Inflater.rereading
        (ofBytes AnimatedFile.smallAnimation.toBytes)
        [frameCall, .framesRemaining, frameCall]).1)
      = [⟨[0x12, 0x30, 0x21, 0x40], 2, 0, 0, 3, 2, 20, .keep, .source⟩,
        ⟨[0x20], 1, 2, 1, 1, 1, 70, .previous, .over⟩] := by
    have hi := Deflate.Inflater.readsOneStream_rereading
    simp only [BySlices.answerAll, frameCall, BySlices.answer, BySlices.perform,
      AnimatedFile.smallAnimation.nextFrame_toBytes hi, AnimatedFile.nextFrame_smallAnimation hi]
    rfl
  obtain ⟨hwell, -⟩ := frames_well_formed Deflate.Inflater.rereading
    AnimatedFile.smallAnimation.toBytes [frameCall, .framesRemaining, frameCall]
  rw [hframes] at hwell
  exact ⟨hframes, hwell _ (by decide)⟩

end Decoder

end DialGraphics.Png
