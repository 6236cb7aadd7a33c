import DialGraphics.Proofs.Png.FrameData
import DialGraphics.Proofs.Png.HeaderCheck
import DialGraphics.Proofs.Png.SlicedRuns

/-!
# The first frame

The first frame of a file is the default image. Frame control in front of it has to cover the whole
canvas, so the frame always has the size that the header says.
-/

namespace DialGraphics.Png

namespace Metadata

/-- Frame control that has been read is about the whole canvas. -/
def IsCovering (h : Header) (m : Metadata) : Prop :=
  ∀ f ∈ m.control, f.covers h.width h.height = true

theorem isCovering_empty (h : Header) : IsCovering h {} := fun _ hf => nomatch hf

theorem withPalette_eq_ok {h : Header} {m m' : Metadata} {data : Bytes}
    (ha : m.withPalette h data = .ok m') : ∃ palette, m' = { m with palette := palette } := by
  simp only [withPalette] at ha
  split at ha
  · cases ha
  · split at ha
    · cases ha
      exact ⟨_, rfl⟩
    · cases ha
      exact ⟨_, rfl⟩

theorem withTransparency_eq_ok {h : Header} {m m' : Metadata} {data : Bytes}
    (ha : m.withTransparency h data = .ok m') :
    ∃ palette key, m' = { m with palette := palette, key := key } := by
  unfold withTransparency at ha
  split at ha
  · split at ha
    · cases ha
      exact ⟨_, _, rfl⟩
    · cases ha
  · cases ha
    exact ⟨_, _, rfl⟩
  · cases ha
    exact ⟨_, _, rfl⟩
  · cases ha

/-- A chunk that is taken in is about the colours, or about nothing that is kept, or it is animation
control, or frame control for the whole canvas. -/
theorem absorb_eq_ok {h : Header} {m m' : Metadata} {c : Chunk} (ha : absorb h m c = .ok m') :
    (∃ palette key, m' = { m with palette := palette, key := key })
      ∨ (∃ a, AnimationControl.ofChunk c = .ok a ∧ m' = { m with animation := some a })
      ∨ ∃ f, FrameControl.ofChunk c h.width h.height = .ok f ∧ f.covers h.width h.height = true
        ∧ m' = { m with control := some f } := by
  unfold absorb at ha
  split at ha
  · obtain ⟨palette, rfl⟩ := withPalette_eq_ok ha
    exact .inl ⟨palette, m.key, rfl⟩
  · split at ha
    · exact .inl (withTransparency_eq_ok ha)
    · split at ha
      · obtain ⟨a, hchunk, rfl⟩ := map_eq_ok_iff.1 ha
        exact .inr (.inl ⟨a, hchunk, rfl⟩)
      · split at ha
        · split at ha
          · cases ha
          · rename_i f hchunk
            split at ha
            · rename_i hcovers
              cases ha
              exact .inr (.inr ⟨f, hchunk, hcovers, rfl⟩)
            · cases ha
        · split at ha
          · cases ha
          · split at ha
            · cases ha
              exact .inl ⟨m.palette, m.key, rfl⟩
            · cases ha

theorem isCovering_of_absorb {h : Header} {m m' : Metadata} {c : Chunk}
    (ha : absorb h m c = .ok m') (hm : m.IsCovering h) : m'.IsCovering h := by
  rcases absorb_eq_ok ha with ⟨palette, key, rfl⟩ | ⟨a, -, rfl⟩ | ⟨f, -, hcovers, rfl⟩
  · exact hm
  · exact hm
  · rintro g ⟨⟩
    exact hcovers

/-- An animation that has been read has frames. -/
def HasFrames (m : Metadata) : Prop := ∀ a ∈ m.animation, 0 < a.frames

theorem frames_pos_of_ofChunk {c : Chunk} {a : AnimationControl}
    (ha : AnimationControl.ofChunk c = .ok a) : 0 < a.frames := by
  simp only [AnimationControl.ofChunk] at ha
  split at ha
  · cases ha
  · split at ha
    · cases ha
    · split at ha
      · cases ha
      · split at ha
        · cases ha
        · rename_i hframes
          cases ha
          exact Nat.pos_of_ne_zero hframes

theorem hasFrames_of_absorb {h : Header} {m m' : Metadata} {c : Chunk}
    (ha : absorb h m c = .ok m') (hm : m.HasFrames) : m'.HasFrames := by
  rcases absorb_eq_ok ha with ⟨palette, key, rfl⟩ | ⟨a, hchunk, rfl⟩ | ⟨f, -, -, rfl⟩
  · exact hm
  · rintro b ⟨⟩
    exact frames_pos_of_ofChunk hchunk
  · exact hm

theorem HasFrames.totalFrames_pos {m : Metadata} (hm : m.HasFrames) : 0 < m.totalFrames := by
  unfold totalFrames
  split
  · exact Nat.zero_lt_one
  · rename_i a hanimation
    have hframes := hm a hanimation
    split
    · exact hframes
    · unfold maxFrames
      omega

/-- What holds at first and is kept by every chunk holds of all that is gathered. -/
theorem keeps_of_foldlM_absorb {P : Metadata → Prop} {h : Header} {m m' : Metadata}
    {chunks : List Chunk} (hP : ∀ {n n' c}, absorb h n c = .ok n' → P n → P n')
    (hf : chunks.foldlM (absorb h) m = .ok m') (hm : P m) : P m' := by
  induction chunks generalizing m with
  | nil =>
    cases hf
    exact hm
  | cons c chunks ih =>
    obtain ⟨next, hc, hnext⟩ := bind_eq_ok_iff.1 hf
    exact ih hnext (hP hc hm)

theorem scan_eq_ok {h : Header} {m m' : Metadata} {chunks rest : List Chunk}
    (hs : scan h m chunks = (m', .ok rest)) (hm : m.IsCovering h) :
    m'.IsCovering h ∧ ∃ c others, rest = c :: others ∧ c.tag = Tag.idat := by
  induction chunks generalizing m with
  | nil =>
    rw [scan] at hs
    cases hs
  | cons c chunks ih =>
    rw [scan] at hs
    split at hs
    · rename_i htag
      cases hs
      exact ⟨hm, c, chunks, rfl, htag⟩
    · split at hs
      · cases hs
      · rename_i next hnext
        exact ih hs (isCovering_of_absorb hnext hm)

end Metadata

namespace Decoder

/-! ### One decoder, step by step -/

theorem readHeader_ofBytes_eq_ok {bytes : Bytes} {h : Header} {d : Decoder}
    (hr : (ofBytes bytes).readHeader = (.ok h, d)) :
    h.IsAccepted
      ∧ ∃ chunks, d = { signed := true, chunks, stage := .header, header := some h } := by
  unfold ofBytes at hr
  split at hr
  · simp only [readHeader] at hr
    split at hr
    · cases hr
    · split at hr
      · cases hr
      · split at hr
        · cases hr
        · rename_i header hheader
          cases hr
          exact ⟨Header.isAccepted_of_ofChunk hheader, _, rfl⟩
  · cases hr

theorem scanMetadata_eq_ok {h : Header} {d loaded : Decoder} (hcontrol : d.metadata.IsCovering h)
    (hs : d.scanMetadata h = (.ok (), loaded)) :
    loaded.framesDecoded = d.framesDecoded ∧ loaded.header = d.header
      ∧ loaded.metadata.IsCovering h
      ∧ ∃ c rest, loaded.chunks = c :: rest ∧ c.tag = Tag.idat := by
  unfold scanMetadata at hs
  split at hs
  · cases hs
  · rename_i m rest hscan
    obtain ⟨hm, hrest⟩ := Metadata.scan_eq_ok hscan hcontrol
    simp only at hs
    split at hs
    · cases hs
      exact ⟨rfl, rfl, hm, hrest⟩
    · cases hs

variable {i : Deflate.Inflater}

/-- A frame is what the run of image data that comes next decodes to. -/
theorem decodeNext_eq_ok {h : Header} {d next : Decoder} {frame : Frame}
    (hd : BySlices.decodeNext i d h = (.ok frame, next)) :
    ∃ control chunks payloads rest,
      seek h (d.framesDecoded == 0) d.metadata.animation.isSome d.metadata.control d.chunks
          = .data control chunks
        ∧ Frame.decodeLines (i.inflate? · payloads) h control = .ok frame
        ∧ next = { d with
          metadata := { d.metadata with control := none }
          chunks := rest
          framesDecoded := d.framesDecoded + 1
          stage := .decoded } := by
  unfold BySlices.decodeNext at hd
  split at hd
  · cases hd
  · split at hd
    · cases hd
    · cases hd
    · rename_i control chunks hseek
      rw [decodeRun_eq] at hd
      split at hd
      · cases hd
      · rename_i payloads rest _
        split at hd
        · cases hd
        · rename_i hframe
          cases hd
          exact ⟨control, chunks, payloads, rest, hseek, hframe, rfl⟩

theorem seek_first {h : Header} {d : Decoder} (hfirst : d.framesDecoded = 0)
    (hchunks : ∃ c rest, d.chunks = c :: rest ∧ c.tag = Tag.idat) :
    seek h (d.framesDecoded == 0) d.metadata.animation.isSome d.metadata.control d.chunks
      = .data d.metadata.control d.chunks := by
  obtain ⟨c, rest, hchunks, htag⟩ := hchunks
  rw [hchunks, hfirst, seek, if_pos ⟨htag, rfl⟩]

/-- The frame control that a search for image data ends with. -/
def Seek.control? : Seek → Option FrameControl
  | .data control _ => control
  | .ended control _ => control
  | .failed _ => none

theorem control_of_seek {P : FrameControl → Prop} {h : Header} {first animated : Bool}
    {control : Option FrameControl} {chunks : List Chunk}
    (hP : ∀ {c f}, FrameControl.ofChunk c h.width h.height = .ok f → P f)
    (hcontrol : ∀ f ∈ control, P f) :
    ∀ f ∈ (seek h first animated control chunks).control?, P f := by
  induction chunks generalizing control with
  | nil =>
    rintro f ⟨⟩
  | cons c chunks ih =>
    rw [seek]
    split
    · exact hcontrol
    · split
      · exact hcontrol
      · split
        · split
          · rintro f ⟨⟩
          · rename_i f hf
            refine ih ?_
            rintro g ⟨⟩
            exact hP hf
        · split
          · exact hcontrol
          · split
            · rintro f ⟨⟩
            · split
              · exact ih hcontrol
              · rintro f ⟨⟩

theorem region_of_first {h : Header} {d next : Decoder} {frame : Frame}
    (hfirst : d.framesDecoded = 0) (hcontrol : d.metadata.IsCovering h)
    (hchunks : ∃ c rest, d.chunks = c :: rest ∧ c.tag = Tag.idat)
    (hd : BySlices.decodeNext i d h = (.ok frame, next)) : frame.region = h.canvas := by
  obtain ⟨control, chunks, payloads, rest, hseek, hframe, -⟩ := decodeNext_eq_ok hd
  rw [seek_first hfirst hchunks] at hseek
  cases hseek
  exact (Frame.decodeLines_eq_ok hframe).2.2.trans (Header.region_eq_canvas hcontrol)

/-- The first frame of a file is as large as the header says, with no row missing or cut off. -/
theorem firstFrame_geometry {bytes : Bytes} {h : Header} {d next : Decoder} {frame : Frame}
    (hr : (ofBytes bytes).readHeader = (.ok h, d))
    (hn : BySlices.nextFrame i d = (.ok frame, next)) :
    h.IsAccepted ∧ frame.width = h.width ∧ frame.height = h.height
      ∧ frame.rowStride = h.rowStride h.width
      ∧ frame.data.length = frame.rowStride * frame.height := by
  obtain ⟨haccepted, chunks, rfl⟩ := readHeader_ofBytes_eq_ok hr
  refine ⟨haccepted, ?_⟩
  simp only [BySlices.nextFrame, readMetadata, readHeader] at hn
  split at hn
  · cases hn
  · rename_i loaded hloaded
    obtain ⟨hframes, hheader, hcontrol, hchunks⟩ :=
      scanMetadata_eq_ok (Metadata.isCovering_empty h) hloaded
    rw [hheader] at hn
    obtain ⟨_, _, _, _, -, hframe, -⟩ := decodeNext_eq_ok hn
    obtain ⟨hrows, hstride, -⟩ := Frame.decodeLines_eq_ok hframe
    have hregion := region_of_first hframes hcontrol hchunks hn
    simp only [Frame.region, Header.canvas, Prod.mk.injEq] at hregion
    obtain ⟨-, -, hwidth, hheight⟩ := hregion
    refine ⟨hwidth, hheight, ?_, ?_⟩
    · rw [hstride, hwidth]
    · rw [hstride]
      exact length_of_decodeLines hrows

end Decoder

end DialGraphics.Png
