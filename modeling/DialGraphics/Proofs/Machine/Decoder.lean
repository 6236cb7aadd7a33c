import DialGraphics.Proofs.Machine.FrameRows
import DialGraphics.Proofs.Png.FirstFrame

/-!
# The decoder fits the machine

Every operation of the decoder gives a result, and it is that of the decoder on numbers without a
limit. What carries this along a run is that a header was accepted, that the frame control at hand
is about a part of the canvas, and that no more frames are counted than a double word can hold.
-/

namespace DialGraphics.Machine

open Png
open Decoder (Operation)

/-! ### What is known in between -/

/-- What is gathered in front of the image data has its numbers in words. -/
structure IsGathered (h : Header) (m : Metadata) : Prop where
  control : ∀ f ∈ m.control, IsAddressable h f
  frames : ∀ a ∈ m.animation, a.frames ≤ Metadata.maxFrames

structure IsAddressed (d : Decoder) : Prop where
  header : ∀ h ∈ d.header, h.IsAccepted ∧ IsGathered h d.metadata
  unread : d.header = none → d.metadata = {}
  totalFrames : d.totalFrames ≤ Metadata.maxFrames

theorem isGathered_empty (h : Header) : IsGathered h {} :=
  ⟨fun _ hf => (nomatch hf), fun _ ha => (nomatch ha)⟩

theorem isAddressed_ofBytes (bytes : Bytes) : IsAddressed (Decoder.ofBytes bytes) := by
  unfold Decoder.ofBytes
  split
  · exact ⟨fun _ h => (nomatch h), fun _ => rfl, Nat.zero_le _⟩
  · exact ⟨fun _ h => (nomatch h), fun _ => rfl, Nat.zero_le _⟩

theorem IsAddressed.fail {d : Decoder} (hd : IsAddressed d) (e : PngError) :
    IsAddressed (d.fail e) := ⟨hd.header, hd.unread, hd.totalFrames⟩

theorem IsAddressed.withChunks {d : Decoder} (hd : IsAddressed d) (chunks : List Chunk) :
    IsAddressed { d with chunks := chunks } := ⟨hd.header, hd.unread, hd.totalFrames⟩

theorem isAddressed_readHeader {d : Decoder} (hd : IsAddressed d) :
    IsAddressed d.readHeader.2 := by
  unfold Decoder.readHeader
  split
  · exact hd
  · exact hd
  · rename_i hunread _
    split
    · exact hd.fail _
    · split
      · exact hd.fail _
      · rename_i c rest _
        split
        · exact (hd.withChunks rest).fail _
        · rename_i h hh
          refine ⟨?_, fun hnone => (nomatch hnone), hd.totalFrames⟩
          rintro h' ⟨⟩
          rw [hd.unread hunread]
          exact ⟨Header.isAccepted_of_ofChunk hh, isGathered_empty h⟩

/-! ### Metadata -/

theorem frames_le_of_ofChunk {c : Chunk} {a : AnimationControl}
    (ha : AnimationControl.ofChunk c = .ok a) : a.frames ≤ Metadata.maxFrames := by
  simp only [AnimationControl.ofChunk] at ha
  split at ha
  · cases ha
  · split at ha
    · cases ha
    · rename_i frames rest hword
      have hlt := (Bytes.eq_ofBigWord32_append_of_bigWord32? hword).2
      split at ha
      · cases ha
      · split at ha
        · cases ha
        · cases ha
          exact Nat.le_of_lt_succ hlt

theorem isAddressable_of_ofChunk {h : Header} {c : Chunk} {f : FrameControl}
    (hf : FrameControl.ofChunk c h.width h.height = .ok f) : IsAddressable h f := by
  refine ⟨FrameControl.fits_of_ofChunk hf, ?_⟩
  simp only [FrameControl.ofChunk] at hf
  split at hf
  · cases hf
  · split at hf
    · cases hf
    · rename_i f' hread
      split at hf
      · cases hf
        exact (FrameControl.of_read? hread).2
      · cases hf

theorem IsGathered.absorb {h : Header} {m m' : Metadata} {c : Chunk} (hm : IsGathered h m)
    (ha : Metadata.absorb h m c = .ok m') : IsGathered h m' := by
  rcases Metadata.absorb_eq_ok ha with ⟨palette, key, rfl⟩ | ⟨a, hchunk, rfl⟩ | ⟨f, hchunk, -, rfl⟩
  · exact ⟨hm.control, hm.frames⟩
  · refine ⟨hm.control, ?_⟩
    rintro b ⟨⟩
    exact frames_le_of_ofChunk hchunk
  · refine ⟨?_, hm.frames⟩
    rintro g ⟨⟩
    exact isAddressable_of_ofChunk hchunk

theorem IsGathered.scan {h : Header} {m : Metadata} (hm : IsGathered h m) (chunks : List Chunk) :
    IsGathered h (Metadata.scan h m chunks).1 := by
  induction chunks generalizing m with
  | nil => exact hm
  | cons c rest ih =>
    unfold Metadata.scan
    split
    · exact hm
    · split
      · exact hm
      · rename_i next hnext
        exact ih (hm.absorb hnext)

theorem IsGathered.totalFrames_le {h : Header} {m : Metadata} (hm : IsGathered h m) :
    m.totalFrames ≤ Metadata.maxFrames := by
  unfold Metadata.totalFrames
  split
  · decide
  · rename_i a ha
    split
    · exact hm.frames a ha
    · exact Nat.min_le_right ..

theorem scanMetadata_eq {d : Decoder} {h : Header} (ha : h.IsAccepted) :
    scanMetadata d h = .ok (d.scanMetadata h) := by
  unfold scanMetadata Decoder.scanMetadata
  rw [scan_eq ha, ok_bind]
  cases Metadata.scan h d.metadata d.chunks with
  | mk m result =>
    cases result with
    | error e => rfl
    | ok rest =>
      simp only
      split
      · rfl
      · rfl

theorem isAddressed_scanMetadata {d : Decoder} {h : Header} (hd : IsAddressed d)
    (hh : d.header = some h) : IsAddressed (d.scanMetadata h).2 := by
  obtain ⟨ha, hm⟩ := hd.header h hh
  have hscan := hm.scan d.chunks
  have hkept : ∀ (m : Metadata) (chunks : List Chunk), IsGathered h m →
      IsAddressed { d with metadata := m, chunks := chunks } := by
    intro m chunks hm
    refine ⟨?_, fun hnone => (nomatch hh.symm.trans hnone), hd.totalFrames⟩
    intro h' hh'
    cases hh.symm.trans hh'
    exact ⟨ha, hm⟩
  unfold Decoder.scanMetadata
  cases hs : Metadata.scan h d.metadata d.chunks with
  | mk m result =>
    rw [hs] at hscan
    cases result with
    | error e => exact (hkept m d.chunks hscan).fail e
    | ok rest =>
      simp only
      split
      · have hloaded := hkept m rest hscan
        exact ⟨hloaded.header, hloaded.unread, hscan.totalFrames_le⟩
      · exact (hkept m rest hscan).fail _

theorem header_of_readHeader {d d' : Decoder} {h : Header} (hr : d.readHeader = (.ok h, d')) :
    d'.header = some h := by
  unfold Decoder.readHeader at hr
  split at hr
  · cases hr
  · rename_i hsome _
    cases hr
    exact hsome
  · split at hr
    · cases hr
    · split at hr
      · cases hr
      · split at hr
        · cases hr
        · cases hr
          rfl

theorem readMetadata_eq {d : Decoder} (hd : IsAddressed d) :
    readMetadata d = .ok d.readMetadata ∧ IsAddressed d.readMetadata.2 := by
  have hheader := isAddressed_readHeader hd
  unfold readMetadata Decoder.readMetadata
  cases hr : d.readHeader with
  | mk result opened =>
    rw [hr] at hheader
    cases result with
    | error e =>
      cases d.stage with
      | fresh => exact ⟨rfl, hheader⟩
      | header => exact ⟨rfl, hheader⟩
      | _ => exact ⟨rfl, hd⟩
    | ok h =>
      have hsome := header_of_readHeader hr
      have hscan := scanMetadata_eq (d := opened) (hheader.header h hsome).1
      have hloaded := isAddressed_scanMetadata hheader hsome
      cases d.stage with
      | fresh => exact ⟨hscan, hloaded⟩
      | header => exact ⟨hscan, hloaded⟩
      | _ => exact ⟨rfl, hd⟩

/-! ### Frames -/

theorem seek_eq {h : Header} (ha : h.IsAccepted) (first animated : Bool)
    (control : Option FrameControl) (chunks : List Chunk) :
    seek h first animated control chunks = .ok (Decoder.seek h first animated control chunks) := by
  induction chunks generalizing control with
  | nil => rfl
  | cons c rest ih =>
    unfold seek Decoder.seek
    split
    · rfl
    · split
      · rfl
      · split
        · rw [frameControl_eq c (width_lt ha) (height_lt ha)]
          show ((Except.ok (FrameControl.ofChunk c h.width h.height) : Checked _) >>= _) = _
          rw [ok_bind]
          cases FrameControl.ofChunk c h.width h.height with
          | error e => rfl
          | ok f => exact ih (some f)
        · split
          · rfl
          · split
            · rfl
            · split
              · exact ih control
              · rfl

section

variable {i : Deflate.Inflater}

theorem decodeRun_eq (hi : i.StaysInOutput) {d : Decoder} {h : Header} (ha : h.IsAccepted)
    {control : Option FrameControl} (hcontrol : ∀ f ∈ control, IsAddressable h f)
    (hcount : d.framesDecoded < Metadata.maxFrames) (chunks : List Chunk) :
    decodeRun i d h control chunks = .ok (Decoder.BySlices.decodeRun i d h control chunks) := by
  unfold Metadata.maxFrames at hcount
  cases chunks with
  | nil => rfl
  | cons first others =>
    simp only [decodeRun, Decoder.BySlices.decodeRun]
    cases behindRun? first.tag (first :: others) with
    | none => rfl
    | some rest =>
      simp only
      rw [decodeFrame_eq hi ha hcontrol]
      show ((Except.ok (Frame.decodeLines (i.inflate? · (slices first.tag (first :: others))) h
        control) : Checked _) >>= _) = _
      rw [ok_bind]
      cases Frame.decodeLines (i.inflate? · (slices first.tag (first :: others))) h control with
      | error e => rfl
      | ok frame =>
        simp only
        rw [add_eq (by omega), ok_bind]

theorem isAddressed_decodeRun {d : Decoder} {h : Header} (hd : IsAddressed d)
    (control : Option FrameControl) (chunks : List Chunk) :
    IsAddressed (Decoder.BySlices.decodeRun i d h control chunks).2 := by
  cases chunks with
  | nil => exact hd.fail _
  | cons first others =>
    simp only [Decoder.BySlices.decodeRun]
    cases behindRun? first.tag (first :: others) with
    | none => exact hd.fail _
    | some rest =>
      have hrest := hd.withChunks rest
      simp only
      cases Frame.decodeLines (i.inflate? · (slices first.tag (first :: others))) h control with
      | error e => exact hrest.fail e
      | ok frame => exact ⟨hrest.header, hrest.unread, hrest.totalFrames⟩

theorem IsAddressed.withControl {d : Decoder} {h : Header} (hd : IsAddressed d)
    (hh : d.header = some h) {control : Option FrameControl}
    (hcontrol : ∀ f ∈ control, IsAddressable h f) :
    IsAddressed { d with metadata := { d.metadata with control := control } } := by
  obtain ⟨ha, hm⟩ := hd.header h hh
  refine ⟨?_, fun hnone => (nomatch hh.symm.trans hnone), hd.totalFrames⟩
  intro h' hh'
  cases hh.symm.trans hh'
  exact ⟨ha, hcontrol, hm.frames⟩

theorem decodeNext_eq (hi : i.StaysInOutput) {d : Decoder} {h : Header} (hd : IsAddressed d)
    (hh : d.header = some h) :
    decodeNext i d h = .ok (Decoder.BySlices.decodeNext i d h)
      ∧ IsAddressed (Decoder.BySlices.decodeNext i d h).2 := by
  obtain ⟨ha, hm⟩ := hd.header h hh
  have htotal := hd.totalFrames
  have hend : ∀ f ∈ (Decoder.seek h (d.framesDecoded == 0) d.metadata.animation.isSome
      d.metadata.control d.chunks).control?, IsAddressable h f :=
    Decoder.control_of_seek isAddressable_of_ofChunk hm.control
  unfold decodeNext Decoder.BySlices.decodeNext
  split
  · exact ⟨rfl, hd⟩
  · rename_i hleft
    have hcount : d.framesDecoded < Metadata.maxFrames := by omega
    rw [seek_eq ha, ok_bind]
    cases hseek : Decoder.seek h (d.framesDecoded == 0) d.metadata.animation.isSome
        d.metadata.control d.chunks with
    | failed e => exact ⟨rfl, hd.fail e⟩
    | ended control rest =>
      rw [hseek] at hend
      have hnext := hd.withControl hh hend
      exact ⟨rfl, hnext.header, hnext.unread, Nat.le_of_lt hcount⟩
    | data control chunks =>
      rw [hseek] at hend
      have hnone : ∀ f ∈ (none : Option FrameControl), IsAddressable h f := fun _ hf => nomatch hf
      have hnext := hd.withControl hh hnone
      have hcontrol : ∀ f ∈ control, IsAddressable h f := hend
      refine ⟨decodeRun_eq hi ha hcontrol ?_ chunks, isAddressed_decodeRun hnext control chunks⟩
      exact hcount

theorem nextFrame_eq (hi : i.StaysInOutput) {d : Decoder} (hd : IsAddressed d) :
    nextFrame i d = .ok (Decoder.BySlices.nextFrame i d)
      ∧ IsAddressed (Decoder.BySlices.nextFrame i d).2 := by
  obtain ⟨hread, hloaded⟩ := readMetadata_eq hd
  unfold nextFrame Decoder.BySlices.nextFrame
  rw [hread]
  cases hr : d.readMetadata with
  | mk result next =>
    rw [hr] at hloaded
    cases result with
    | error e =>
      cases d.stage with
      | failed => exact ⟨rfl, hd⟩
      | _ => exact ⟨rfl, hloaded⟩
    | ok _ =>
      cases hh : next.header with
      | none =>
        cases d.stage with
        | failed => exact ⟨rfl, hd⟩
        | _ =>
          simp only [ok_bind, hh]
          exact ⟨trivial, hloaded.fail _⟩
      | some h =>
        cases d.stage with
        | failed => exact ⟨rfl, hd⟩
        | _ =>
          simp only [ok_bind, hh]
          exact decodeNext_eq hi hloaded hh

/-! ### Runs -/

theorem perform_eq (hi : i.StaysInOutput) {d : Decoder} (hd : IsAddressed d) (op : Operation) :
    perform i d op = .ok (Decoder.BySlices.perform i d op)
      ∧ IsAddressed (Decoder.BySlices.perform i d op).2 := by
  cases op with
  | header => exact ⟨rfl, isAddressed_readHeader hd⟩
  | metadata =>
    obtain ⟨hread, hnext⟩ := readMetadata_eq hd
    refine ⟨?_, hnext⟩
    rw [perform, hread]
    rfl
  | frame =>
    obtain ⟨hframe, hnext⟩ := nextFrame_eq hi hd
    refine ⟨?_, hnext⟩
    rw [perform, hframe]
    rfl

theorem performAll_eq (hi : i.StaysInOutput) {d : Decoder} (hd : IsAddressed d)
    (ops : List Operation) :
    performAll i d ops = .ok (Decoder.BySlices.performAll i d ops)
      ∧ IsAddressed (Decoder.BySlices.performAll i d ops).2 := by
  induction ops generalizing d with
  | nil => exact ⟨rfl, hd⟩
  | cons op ops ih =>
    obtain ⟨hstep, hnext⟩ := perform_eq hi hd op
    obtain ⟨hrest, hlast⟩ := ih hnext
    refine ⟨?_, hlast⟩
    rw [performAll, hstep, ok_bind]
    simp only
    rw [hrest, ok_bind]
    rfl

end

end DialGraphics.Machine
