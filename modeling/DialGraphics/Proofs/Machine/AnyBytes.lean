import DialGraphics.Proofs.Bitmap.PngColors
import DialGraphics.Proofs.Machine.PngFile

/-!
# Any bytes

The decoder and the bitmap that is made of its first frame on bytes that may be anything. No
operation stops the machine, whatever it was before and whatever the inflater is, as long as that
stays in the output that it is given. A buffer is too large exactly if its size says so.
-/

namespace DialGraphics

/-! ### Buffers that are too large -/

namespace Png

/-- The size of the buffer for the lines of a frame. -/
def Header.bufferSize (h : Header) (control : Option FrameControl) : Nat :=
  match h.region control with
  | (_, _, width, height) => filteredSize (h.rowStride width) height

theorem decodeLines_outOfMemory_iff {lines? : Nat → Option Bytes} {h : Header}
    {width height : Nat} :
    decodeLines lines? h width height = .error .outOfMemory
      ↔ allocationLimit ≤ filteredSize (h.rowStride width) height := by
  simp only [decodeLines]
  split
  · rename_i hlarge
    exact ⟨fun _ => hlarge, fun _ => rfl⟩
  · rename_i hroom
    refine ⟨fun hd => ?_, fun hlarge => absurd hlarge hroom⟩
    split at hd
    · cases hd
    · split at hd
      · cases hd
      · cases hd

theorem Frame.decodeLines_outOfMemory_iff {lines? : Nat → Option Bytes} {h : Header}
    {control : Option FrameControl} :
    Frame.decodeLines lines? h control = .error .outOfMemory
      ↔ allocationLimit ≤ h.bufferSize control := by
  cases control with
  | none => exact map_eq_error_iff.trans Png.decodeLines_outOfMemory_iff
  | some f => exact map_eq_error_iff.trans Png.decodeLines_outOfMemory_iff

namespace Decoder

/-- The next frame is in a run of image data that starts with a chunk. -/
structure Faces (d : Decoder) (h : Header) (control : Option FrameControl) (first : Chunk)
    (others : List Chunk) : Prop where
  header : d.header = some h
  frames : d.framesDecoded < d.totalFrames
  data : seek h (d.framesDecoded == 0) d.metadata.animation.isSome d.metadata.control d.chunks
    = .data control (first :: others)
  run : (behindRun? first.tag (first :: others)).isSome

variable {i : Deflate.Inflater}

theorem decodeRun_outOfMemory_iff {d : Decoder} {h : Header} {control : Option FrameControl}
    {first : Chunk} {others : List Chunk}
    (hrun : (behindRun? first.tag (first :: others)).isSome) :
    (BySlices.decodeRun i d h control (first :: others)).1 = .error .outOfMemory
      ↔ allocationLimit ≤ h.bufferSize control := by
  obtain ⟨rest, hrest⟩ := Option.isSome_iff_exists.1 hrun
  have hlines : Frame.decodeLines (i.inflate? · (slices first.tag (first :: others))) h control
      = .error .outOfMemory ↔ allocationLimit ≤ h.bufferSize control :=
    Frame.decodeLines_outOfMemory_iff
  rw [← hlines]
  simp only [BySlices.decodeRun, hrest]
  cases Frame.decodeLines (i.inflate? · (slices first.tag (first :: others))) h control with
  | error e => exact Iff.rfl
  | ok frame =>
    constructor
    · intro hf
      cases hf
    · intro hf
      cases hf

theorem nextFrame_outOfMemory_iff {d loaded : Decoder} {h : Header}
    {control : Option FrameControl} {first : Chunk} {others : List Chunk}
    (hread : d.readMetadata = (.ok (), loaded)) (hl : loaded.Faces h control first others) :
    (BySlices.nextFrame i d).1 = .error .outOfMemory ↔ allocationLimit ≤ h.bufferSize control := by
  have hstage : d.stage ≠ .failed := by
    intro hfailed
    simp only [readMetadata, hfailed] at hread
    cases hread
  have hmore : ¬ loaded.totalFrames ≤ loaded.framesDecoded := Nat.not_le.2 hl.frames
  rw [nextFrame_of_ok hstage hread hl.header, BySlices.decodeNext, if_neg hmore, hl.data]
  exact decodeRun_outOfMemory_iff hl.run

end Decoder

end Png

/-! ### Every step and every bitmap -/

namespace Machine

open Png
open Decoder (Operation)

/-- On any bytes, any operations in any order have the outcomes that they have on numbers without a
limit, and any platform gets the bitmap or the error that it gets there; nothing stops the machine.
Wherever a run has come to, the next frame is out of memory exactly if the buffer for its lines is
too large. With an inflater that reads its slices as one stream the outcomes are those of the
decoder that joins them. -/
theorem decodes_any_bytes {i : Deflate.Inflater} (hi : i.StaysInOutput) (bytes : Bytes) :
    (∀ ops, (ofBytes bytes >>= fun d => performAll i d ops)
        = .ok (Decoder.BySlices.performAll i (Decoder.ofBytes bytes) ops))
      ∧ (∀ platform, ofPng i bytes platform = settled (Bitmap.BySlices.ofPng i bytes platform))
      ∧ (∀ (ops : List Operation) (d loaded : Decoder) (h : Header)
          (control : Option FrameControl) (first : Chunk) (others : List Chunk),
        d = (Decoder.BySlices.performAll i (Decoder.ofBytes bytes) ops).2 →
        d.readMetadata = (.ok (), loaded) → loaded.Faces h control first others →
        ((∃ next, nextFrame i d = .ok (.error .outOfMemory, next))
          ↔ allocationLimit ≤ h.bufferSize control))
      ∧ (i.ReadsOneStream →
        (∀ ops, (ofBytes bytes >>= fun d => performAll i d ops)
            = .ok ((Decoder.ofBytes bytes).performAll ops))
          ∧ ∀ platform, ofPng i bytes platform = settled (Bitmap.ofPng bytes platform)) := by
  have hruns : ∀ ops, (ofBytes bytes >>= fun d => performAll i d ops)
      = .ok (Decoder.BySlices.performAll i (Decoder.ofBytes bytes) ops) := by
    intro ops
    rw [ofBytes_eq, ok_bind]
    exact (performAll_eq hi (isAddressed_ofBytes bytes) ops).1
  refine ⟨hruns, ofPng_eq hi bytes, ?_, ?_⟩
  · rintro ops d loaded h control first others rfl hread hl
    have haddressed := (performAll_eq hi (isAddressed_ofBytes bytes) ops).2
    rw [(nextFrame_eq hi haddressed).1, ← Decoder.nextFrame_outOfMemory_iff hread hl]
    constructor
    · rintro ⟨next, hnext⟩
      exact congrArg Prod.fst (Except.ok.inj hnext)
    · intro hlarge
      exact ⟨_, congrArg Except.ok (Prod.ext hlarge rfl)⟩
  · intro hone
    refine ⟨fun ops => ?_, fun platform => ?_⟩
    · rw [hruns, Decoder.performAll_bySlices hone]
    · rw [ofPng_eq hi, Bitmap.ofPng_bySlices hone]

/-- A file that says it has as many pixels as a file can say, and has no image data. -/
def vastFile : List Chunk :=
  [⟨Tag.ihdr, Header.toData ⟨Header.maxSide, Header.maxSide, 8, .rgba⟩, 0⟩, ⟨Tag.idat, [], 0⟩]

def vastLoaded : Decoder where
  signed := true
  chunks := [⟨Tag.idat, [], 0⟩]
  stage := .loaded
  header := some ⟨Header.maxSide, Header.maxSide, 8, .rgba⟩
  totalFrames := 1

theorem decodes_any_bytes_vastFile :
    (ofBytes StillFile.smallFile.toBytes >>= fun d =>
        performAll Deflate.Inflater.rereading d [.header, .metadata, .frame])
      = .ok ([.header (.ok ⟨3, 2, 4, .indexed⟩), .metadata (.ok ()),
          .frame (.ok ⟨[0x12, 0x30, 0x21, 0x40], 2, 0, 0, 3, 2, 0, .keep, .source⟩)],
        StillFile.smallFile.done)
      ∧ ∃ next, nextFrame Deflate.Inflater.rereading (Decoder.ofBytes (Chunk.encodeFile vastFile))
        = .ok (.error .outOfMemory, next) := by
  have hi := Deflate.Inflater.staysInOutput_rereading
  constructor
  · obtain ⟨-, -, -, hone⟩ := decodes_any_bytes hi StillFile.smallFile.toBytes
    rw [(hone Deflate.Inflater.readsOneStream_rereading).1,
      ← Decoder.performAll_bySlices Deflate.Inflater.readsOneStream_rereading,
      Bitmap.performAll_stillFile Deflate.Inflater.readsOneStream_rereading]
    rfl
  · obtain ⟨-, -, hmemory, -⟩ := decodes_any_bytes hi (Chunk.encodeFile vastFile)
    have hread : (Decoder.ofBytes (Chunk.encodeFile vastFile)).readMetadata
        = (.ok (), vastLoaded) := by
      rw [Decoder.ofBytes_encodeFile (by decide)]
      rfl
    refine (hmemory [] _ vastLoaded _ _ _ _ rfl hread ⟨rfl, ?_, rfl, rfl⟩).2 ?_
    · decide
    · decide

end Machine

end DialGraphics
