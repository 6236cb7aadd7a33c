import DialGraphics.Proofs.Png.ControlChunks
import DialGraphics.Proofs.Png.FirstError
import DialGraphics.Proofs.Png.StillImage

/-!
# Animated images

A file of an animation decodes to its frames, one after the other and each with the place, the
time and the rows that it was written with, and then to nothing else. The default image is the
first frame of the animation or an image of its own.
-/

namespace DialGraphics.Png

/-! ### Images as they are written -/

/-- The rows of a region, filtered, compressed in stored blocks, and divided into data chunks. -/
structure WrittenImage (h : Header) (width height : Nat) (tag : Tag) where
  image : FilteredImage h width height
  allocatable : filteredSize (h.rowStride width) height < allocationLimit
  stream : Deflate.StoredStream image.lines
  run : DataRun tag stream.toBytes

theorem WrittenImage.decodeRows_stream {h : Header} (ha : h.IsAccepted) {width height : Nat}
    {tag : Tag} (i : WrittenImage h width height tag) (hwidth : 0 < width) (hheight : 0 < height) :
    decodeRows h width height i.stream.toBytes = .ok i.image.data :=
  i.image.decodeRows_storedStream i.stream (ha.rowStride_pos hwidth) hheight i.allocatable

/-- An image with the frame control in front of it. -/
structure WrittenFrame (h : Header) (tag : Tag) where
  control : FrameControl
  writable : control.IsWritable
  width_pos : 0 < control.width
  height_pos : 0 < control.height
  right_le : control.x + control.width ≤ h.width
  bottom_le : control.y + control.height ≤ h.height
  crc : Nat
  crc_lt : crc < wordLimit
  image : WrittenImage h control.width control.height tag

namespace WrittenFrame

variable {h : Header} {tag : Tag}

def controlChunk (f : WrittenFrame h tag) : Chunk := ⟨Tag.fctl, f.control.toData, f.crc⟩

def chunks (f : WrittenFrame h tag) : List Chunk := f.controlChunk :: f.image.run.chunks

def frame (f : WrittenFrame h tag) : Frame where
  data := f.image.image.data
  rowStride := h.rowStride f.control.width
  x := f.control.x
  y := f.control.y
  width := f.control.width
  height := f.control.height
  delay := f.control.delayNum * 1000 / (if f.control.delayDen = 0 then 100 else f.control.delayDen)
  dispose := f.control.dispose
  blend := f.control.blend

theorem isWritable_controlChunk (f : WrittenFrame h tag) : f.controlChunk.IsWritable := by
  refine ⟨?_, f.crc_lt⟩
  rw [controlChunk, FrameControl.length_toData]
  decide

theorem ofChunk_controlChunk (ha : h.IsAccepted) (f : WrittenFrame h tag) :
    FrameControl.ofChunk f.controlChunk h.width h.height = .ok f.control := by
  have hwidth := ha.width_le
  have hheight := ha.height_le
  unfold Header.maxSide at hwidth hheight
  have hfits : f.control.fits h.width h.height = true :=
    FrameControl.fits_iff.2 ⟨f.width_pos, f.height_pos, f.right_le, f.bottom_le⟩
  exact FrameControl.ofChunk_toData f.writable (by unfold wordLimit; omega)
    (by unfold wordLimit; omega) hfits f.crc

theorem decode_stream (ha : h.IsAccepted) (f : WrittenFrame h tag) :
    Frame.decode h (some f.control) f.image.stream.toBytes = .ok f.frame := by
  simp only [Frame.decode, f.image.decodeRows_stream ha f.width_pos f.height_pos, Except.map]
  rfl

end WrittenFrame

/-! ### The default image -/

/-- The image in front: the first frame of the animation, which covers the canvas, or an image of
its own without frame control. -/
inductive Opening (h : Header)
  | frame (first : WrittenFrame h Tag.idat)
      (whole : first.control.x = 0 ∧ first.control.y = 0 ∧ first.control.width = h.width
        ∧ first.control.height = h.height)
  | still (image : WrittenImage h h.width h.height Tag.idat)

namespace Opening

variable {h : Header}

def control : Opening h → Option FrameControl
  | .frame first _ => some first.control
  | .still _ => none

def controlChunks : Opening h → List Chunk
  | .frame first _ => [first.controlChunk]
  | .still _ => []

/-- How many frames of the animation are in front. -/
def count : Opening h → Nat
  | .frame _ _ => 1
  | .still _ => 0

def stream : Opening h → Bytes
  | .frame first _ => first.image.stream.toBytes
  | .still image => image.stream.toBytes

def run : (o : Opening h) → DataRun Tag.idat o.stream
  | .frame first _ => first.image.run
  | .still image => image.run

def shown : Opening h → Frame
  | .frame first _ => first.frame
  | .still image =>
    ⟨image.image.data, h.rowStride h.width, 0, 0, h.width, h.height, 0, .keep, .source⟩

theorem decode_stream (ha : h.IsAccepted) (o : Opening h) :
    Frame.decode h o.control o.stream = .ok o.shown := by
  cases o with
  | frame first whole => exact first.decode_stream ha
  | still image =>
    simp only [control, stream, Frame.decode, image.decodeRows_stream ha ha.width_pos ha.height_pos,
      Except.map]
    rfl

theorem length_controlChunks_le (o : Opening h) : o.controlChunks.length ≤ 1 := by
  cases o with
  | frame first whole => exact Nat.le_refl 1
  | still image => exact Nat.zero_le 1

theorem isWritable_of_mem_controlChunks (o : Opening h) :
    ∀ c ∈ o.controlChunks, c.IsWritable := by
  intro c hc
  cases o with
  | frame first whole =>
    rw [List.mem_singleton.1 hc]
    exact first.isWritable_controlChunk
  | still image => cases hc

end Opening

namespace Metadata

theorem foldlM_absorb_append {h : Header} {m m' : Metadata} {front : List Chunk}
    (hfront : front.foldlM (absorb h) m = .ok m') (rest : List Chunk) :
    (front ++ rest).foldlM (absorb h) m = rest.foldlM (absorb h) m' := by
  rw [List.foldlM_append, hfront]
  rfl

theorem absorb_animationChunk (h : Header) (m : Metadata) {a : AnimationControl}
    (ha : a.IsWritable) (crc : Nat) :
    absorb h m ⟨Tag.actl, a.toData, crc⟩ = .ok { m with animation := some a } := by
  simp only [absorb]
  rw [if_neg (by decide), if_neg (by decide), if_pos trivial, AnimationControl.ofChunk_toData ha]
  rfl

theorem foldlM_absorb_controlChunks {h : Header} (ha : h.IsAccepted) {m : Metadata}
    (hm : m.control = none) (o : Opening h) :
    o.controlChunks.foldlM (absorb h) m = .ok { m with control := o.control } := by
  cases o with
  | frame first whole =>
    have htag : first.controlChunk.tag = Tag.fctl := rfl
    have hcovers : first.control.covers h.width h.height = true := by
      obtain ⟨hx, hy, hwidth, hheight⟩ := whole
      simp only [FrameControl.covers, hx, hy, hwidth, hheight, beq_self_eq_true, Bool.and_self]
    have habsorb : absorb h m first.controlChunk
        = .ok { m with control := some first.control } := by
      rw [absorb, htag, if_neg (by decide), if_neg (by decide), if_neg (by decide), if_pos rfl]
      simp only [first.ofChunk_controlChunk ha, hcovers]
      rfl
    rw [Opening.controlChunks, List.foldlM_cons, habsorb]
    rfl
  | still image =>
    have hnone : { m with control := none } = m := by rw [← hm]
    rw [Opening.controlChunks, Opening.control, hnone]
    rfl

end Metadata

/-! ### Files of an animation -/

/-- An animation as it is written to a file: its control chunks with the palette anywhere among
them, the image in front, and the later frames. -/
structure AnimatedFile where
  header : Header
  accepted : header.IsAccepted
  headerCrc : Nat
  headerCrc_lt : headerCrc < wordLimit
  palette : List Chunk
  arePalette : ArePalette header palette
  /-- How many control chunks are in front of the palette. -/
  palettePlace : Nat
  plays : Nat
  plays_lt : plays < wordLimit
  animationCrc : Nat
  animationCrc_lt : animationCrc < wordLimit
  opening : Opening header
  later : List (WrittenFrame header Tag.fdat)
  count_pos : 0 < opening.count + later.length
  count_lt : opening.count + later.length < Metadata.maxFrames
  endCrc : Nat
  endCrc_lt : endCrc < wordLimit

namespace AnimatedFile

def animation (f : AnimatedFile) : AnimationControl := ⟨f.opening.count + f.later.length, f.plays⟩

def animationChunk (f : AnimatedFile) : Chunk := ⟨Tag.actl, f.animation.toData, f.animationCrc⟩

def controlChunks (f : AnimatedFile) : List Chunk := f.animationChunk :: f.opening.controlChunks

def front (f : AnimatedFile) : List Chunk :=
  f.controlChunks.take f.palettePlace ++ f.palette ++ f.controlChunks.drop f.palettePlace

def lastChunk (f : AnimatedFile) : Chunk := ⟨Tag.iend, [], f.endCrc⟩

def tail (f : AnimatedFile) (later : List (WrittenFrame f.header Tag.fdat)) : List Chunk :=
  later.flatMap WrittenFrame.chunks ++ [f.lastChunk]

def chunks (f : AnimatedFile) : List Chunk :=
  ⟨Tag.ihdr, f.header.toData, f.headerCrc⟩
    :: (f.front ++ (f.opening.run.chunks ++ f.tail f.later))

def toBytes (f : AnimatedFile) : Bytes := Chunk.encodeFile f.chunks

/-- The images to be had, in order. -/
def frames (f : AnimatedFile) : List Frame := f.opening.shown :: f.later.map WrittenFrame.frame

theorem length_frames (f : AnimatedFile) : f.frames.length = f.later.length + 1 := by
  rw [frames, List.length_cons, List.length_map]

theorem isWritable_animation (f : AnimatedFile) : f.animation.IsWritable where
  frames_pos := f.count_pos
  frames_lt := Nat.lt_trans f.count_lt (by decide)
  plays_lt := f.plays_lt

theorem isWritable_of_mem_controlChunks (f : AnimatedFile) :
    ∀ c ∈ f.controlChunks, c.IsWritable := by
  intro c hc
  rcases List.mem_cons.1 hc with rfl | hc
  · exact ⟨by rw [animationChunk, AnimationControl.length_toData]; decide, f.animationCrc_lt⟩
  · exact f.opening.isWritable_of_mem_controlChunks c hc

theorem tag_of_mem_controlChunks (f : AnimatedFile) :
    ∀ c ∈ f.controlChunks, c.tag ≠ Tag.idat := by
  intro c hc
  rcases List.mem_cons.1 hc with rfl | hc
  · exact show Tag.actl ≠ Tag.idat by decide
  · cases hopening : f.opening with
    | frame first whole =>
      rw [hopening] at hc
      rw [List.mem_singleton.1 hc]
      exact show Tag.fctl ≠ Tag.idat by decide
    | still image =>
      rw [hopening] at hc
      cases hc

theorem mem_front {f : AnimatedFile} {c : Chunk} (hc : c ∈ f.front) :
    c ∈ f.controlChunks ∨ c ∈ f.palette := by
  rcases List.mem_append.1 hc with hc | hc
  · rcases List.mem_append.1 hc with hc | hc
    · exact .inl (List.mem_of_mem_take hc)
    · exact .inr hc
  · exact .inl (List.mem_of_mem_drop hc)

theorem isWritable_of_mem_tail (f : AnimatedFile) (later : List (WrittenFrame f.header Tag.fdat)) :
    ∀ c ∈ f.tail later, c.IsWritable := by
  intro c hc
  rcases List.mem_append.1 hc with hc | hc
  · obtain ⟨x, -, hc⟩ := List.mem_flatMap.1 hc
    rcases List.mem_cons.1 hc with rfl | hc
    · exact x.isWritable_controlChunk
    · exact x.image.run.writable c hc
  · rw [List.mem_singleton.1 hc]
    exact ⟨Nat.zero_lt_succ _, f.endCrc_lt⟩

theorem isWritable_of_mem_chunks (f : AnimatedFile) : ∀ c ∈ f.chunks, c.IsWritable := by
  intro c hc
  rcases List.mem_cons.1 hc with rfl | hc
  · exact ⟨by rw [Header.length_toData]; decide, f.headerCrc_lt⟩
  · rcases List.mem_append.1 hc with hc | hc
    · rcases mem_front hc with hc | hc
      · exact f.isWritable_of_mem_controlChunks c hc
      · exact f.arePalette.isWritable_of_mem c hc
    · rcases List.mem_append.1 hc with hc | hc
      · exact f.opening.run.writable c hc
      · exact f.isWritable_of_mem_tail f.later c hc

theorem tag_of_mem_head?_tail (f : AnimatedFile) (later : List (WrittenFrame f.header Tag.fdat)) :
    ∀ c ∈ (f.tail later).head?, c.tag = Tag.fctl ∨ c.tag = Tag.iend := by
  intro c hc
  cases later with
  | nil =>
    cases hc
    exact .inr rfl
  | cons x later =>
    cases hc
    exact .inl rfl

/-! ### Metadata -/

def metadata (f : AnimatedFile) : Metadata where
  palette := ArePalette.entries f.palette
  animation := some f.animation
  control := f.opening.control

theorem foldlM_absorb_front (f : AnimatedFile) :
    f.front.foldlM (Metadata.absorb f.header) {} = .ok f.metadata := by
  have hanimation : ∀ m, [f.animationChunk].foldlM (Metadata.absorb f.header) m
      = .ok { m with animation := some f.animation } := by
    intro m
    have habsorb : Metadata.absorb f.header m f.animationChunk
        = .ok { m with animation := some f.animation } :=
      Metadata.absorb_animationChunk f.header m f.isWritable_animation f.animationCrc
    rw [List.foldlM_cons, habsorb]
    rfl
  have hall : f.controlChunks = [f.animationChunk] ++ f.opening.controlChunks := rfl
  -- the palette is in front of the animation control, right behind it, or behind all of them
  rw [front, hall]
  match f.palettePlace with
  | 0 =>
    rw [List.take_zero, List.drop_zero, List.nil_append,
      Metadata.foldlM_absorb_append (f.arePalette.foldlM_absorb rfl),
      Metadata.foldlM_absorb_append (hanimation _)]
    exact Metadata.foldlM_absorb_controlChunks f.accepted rfl f.opening
  | 1 =>
    have htake : ([f.animationChunk] ++ f.opening.controlChunks).take 1 = [f.animationChunk] := rfl
    have hdrop : ([f.animationChunk] ++ f.opening.controlChunks).drop 1
        = f.opening.controlChunks := rfl
    rw [htake, hdrop, List.append_assoc, Metadata.foldlM_absorb_append (hanimation _),
      Metadata.foldlM_absorb_append (f.arePalette.foldlM_absorb rfl)]
    exact Metadata.foldlM_absorb_controlChunks f.accepted rfl f.opening
  | n + 2 =>
    have hlength : ([f.animationChunk] ++ f.opening.controlChunks).length ≤ n + 2 := by
      have := f.opening.length_controlChunks_le
      simp only [List.length_append, List.length_singleton]
      omega
    rw [List.take_of_length_le hlength, List.drop_of_length_le hlength, List.append_nil,
      List.append_assoc, Metadata.foldlM_absorb_append (hanimation _),
      Metadata.foldlM_absorb_append
        (Metadata.foldlM_absorb_controlChunks f.accepted rfl f.opening)]
    exact f.arePalette.foldlM_absorb rfl

theorem isComplete_metadata (f : AnimatedFile) : f.metadata.isComplete f.header = true := by
  have hanimation : f.metadata.animation.isNone = false := rfl
  by_cases hcolor : f.header.color = .indexed
  · have hentries : f.metadata.palette.isEmpty = false :=
      f.arePalette.entries_isEmpty_eq_false hcolor
    simp only [Metadata.isComplete, hentries, hanimation, Bool.and_false]
    rfl
  · simp only [Metadata.isComplete, hanimation, beq_eq_false_iff_ne.2 hcolor, Bool.and_false]
    rfl

/-- A default image of its own is expected on top of the frames of the animation. -/
theorem totalFrames_metadata (f : AnimatedFile) : f.metadata.totalFrames = f.frames.length := by
  rw [f.length_frames]
  have hlt := f.count_lt
  cases hopening : f.opening with
  | frame first whole =>
    rw [hopening] at hlt
    simp only [Metadata.totalFrames, metadata, animation, hopening, Opening.control, Opening.count,
      Option.isSome_some, if_true]
    omega
  | still image =>
    rw [hopening] at hlt
    simp only [Opening.count] at hlt
    simp only [Metadata.totalFrames, metadata, animation, hopening, Opening.control, Opening.count,
      Option.isSome_none, Bool.false_eq_true, if_false]
    omega

theorem scan_chunks (f : AnimatedFile) :
    Metadata.scan f.header {} (f.front ++ (f.opening.run.chunks ++ f.tail f.later))
      = (f.metadata, .ok (f.opening.run.chunks ++ f.tail f.later)) := by
  obtain ⟨first, others, hrun, hfirst⟩ := f.opening.run.chunks_eq_cons
  have hfront : ∀ c ∈ f.front, c.tag ≠ Tag.idat := by
    intro c hc
    rcases mem_front hc with hc | hc
    · exact f.tag_of_mem_controlChunks c hc
    · rw [f.arePalette.tag_of_mem c hc]
      decide
  rw [Metadata.scan_append hfront f.foldlM_absorb_front, hrun]
  exact Metadata.scan_idat hfirst _

/-! ### Decoding -/

def loaded (f : AnimatedFile) : Decoder where
  signed := true
  chunks := f.opening.run.chunks ++ f.tail f.later
  stage := .loaded
  header := some f.header
  metadata := f.metadata
  totalFrames := f.frames.length

/-- The decoder in front of some of the later frames. -/
def decoded (f : AnimatedFile) (later : List (WrittenFrame f.header Tag.fdat)) : Decoder where
  signed := true
  chunks := f.tail later
  stage := .decoded
  header := some f.header
  metadata := { f.metadata with control := none }
  totalFrames := f.frames.length
  framesDecoded := f.frames.length - later.length

theorem readMetadata_ofBytes (f : AnimatedFile) :
    (Decoder.ofBytes f.toBytes).readMetadata = (.ok (), f.loaded) := by
  have hheader := Decoder.readHeader_encodeFile f.accepted f.isWritable_of_mem_chunks
  rw [toBytes, chunks, Decoder.readMetadata_of_ok (.inl (Decoder.stage_ofBytes _)) hheader]
  simp only [Decoder.scanMetadata, f.scan_chunks, f.isComplete_metadata, f.totalFrames_metadata,
    if_true]
  rfl

section Frames

variable {i : Deflate.Inflater} (hi : i.ReadsOneStream)

include hi

theorem nextFrame_loaded (f : AnimatedFile) :
    Decoder.BySlices.nextFrame i f.loaded = (.ok f.opening.shown, f.decoded f.later) := by
  obtain ⟨first, others, hrun, hfirst⟩ := f.opening.run.chunks_eq_cons
  have hmore : f.loaded.framesDecoded < f.loaded.totalFrames := by
    show 0 < f.frames.length
    rw [f.length_frames]
    omega
  have hseek : Decoder.seek f.header (f.loaded.framesDecoded == 0)
        f.loaded.metadata.animation.isSome f.loaded.metadata.control f.loaded.chunks
      = .data f.opening.control (f.opening.run.chunks ++ f.tail f.later) := by
    show Decoder.seek f.header true true f.opening.control
      (f.opening.run.chunks ++ f.tail f.later) = _
    rw [hrun, List.cons_append, Decoder.seek, if_pos ⟨hfirst, rfl⟩]
  have htail : ∀ c ∈ (f.tail f.later).head?, c.tag ≠ Tag.idat := by
    intro c hc
    rcases f.tag_of_mem_head?_tail f.later c hc with htag | htag <;> rw [htag] <;> decide
  rw [Decoder.nextFrame_eq_decodeNext (.inl rfl) rfl,
    Decoder.decodeNext_of_data hi hmore hseek (f.opening.run.dataRun?_chunks_append htail)
      (f.opening.decode_stream f.accepted)]
  have hone : f.frames.length - f.later.length = 1 := by
    rw [f.length_frames]
    omega
  rw [decoded, hone]
  rfl

theorem nextFrame_toBytes (f : AnimatedFile) :
    Decoder.BySlices.nextFrame i (Decoder.ofBytes f.toBytes)
      = (.ok f.opening.shown, f.decoded f.later) := by
  rw [← f.nextFrame_loaded hi, Decoder.nextFrame_eq_decodeNext (d := f.loaded) (.inl rfl) rfl]
  exact Decoder.nextFrame_of_ok (Decoder.unfailed_ofBytes _) f.readMetadata_ofBytes rfl

theorem nextFrame_decoded (f : AnimatedFile) {x : WrittenFrame f.header Tag.fdat}
    {later : List (WrittenFrame f.header Tag.fdat)} (hlater : later.length < f.later.length) :
    Decoder.BySlices.nextFrame i (f.decoded (x :: later)) = (.ok x.frame, f.decoded later) := by
  have hlength := f.length_frames
  have hmore : (f.decoded (x :: later)).framesDecoded < (f.decoded (x :: later)).totalFrames := by
    show f.frames.length - (later.length + 1) < f.frames.length
    omega
  have hfirst : ((f.decoded (x :: later)).framesDecoded == 0) = false := by
    show (f.frames.length - (later.length + 1) == 0) = false
    rw [beq_eq_false_iff_ne]
    omega
  obtain ⟨first, others, hrun, htag⟩ := x.image.run.chunks_eq_cons
  have hseek : Decoder.seek f.header ((f.decoded (x :: later)).framesDecoded == 0)
        (f.decoded (x :: later)).metadata.animation.isSome
        (f.decoded (x :: later)).metadata.control (f.decoded (x :: later)).chunks
      = .data (some x.control) (x.image.run.chunks ++ f.tail later) := by
    have hchunks : (f.decoded (x :: later)).chunks
        = x.controlChunk :: (first :: (others ++ f.tail later)) := by
      show (x :: later).flatMap WrittenFrame.chunks ++ [f.lastChunk] = _
      rw [List.flatMap_cons, WrittenFrame.chunks, hrun, tail]
      simp only [List.cons_append, List.append_assoc]
    rw [hfirst, hchunks, hrun]
    show Decoder.seek f.header false true none _ = _
    rw [Decoder.seek, if_neg (by simp), if_neg (by simp), if_pos ⟨rfl, rfl, rfl⟩,
      x.ofChunk_controlChunk f.accepted]
    simp only
    rw [Decoder.seek, if_neg (by simp), if_pos ⟨htag, rfl, rfl⟩]
    rfl
  have htail : ∀ c ∈ (f.tail later).head?, c.tag ≠ Tag.fdat := by
    intro c hc
    rcases f.tag_of_mem_head?_tail later c hc with htag | htag <;> rw [htag] <;> decide
  rw [Decoder.nextFrame_eq_decodeNext (.inr rfl) rfl,
    Decoder.decodeNext_of_data hi hmore hseek (x.image.run.dataRun?_chunks_append htail)
      (x.decode_stream f.accepted)]
  have hcount : f.frames.length - (x :: later).length + 1 = f.frames.length - later.length := by
    rw [List.length_cons]
    omega
  rw [decoded, decoded, hcount]

end Frames

/-- What `k` calls for a frame give when `frames` are to be had. -/
def outcomes (frames : List Frame) (k : Nat) : List Decoder.Outcome :=
  (frames.take k).map (fun frame => .frame (.ok frame))
    ++ List.replicate (k - frames.length) (.frame (.error .endOfStream))

theorem outcomes_zero (frames : List Frame) : outcomes frames 0 = [] := by
  rw [outcomes, Nat.zero_sub]
  rfl

theorem outcomes_nil (k : Nat) :
    outcomes [] k = List.replicate k (.frame (.error .endOfStream)) := by
  rw [outcomes, List.take_nil]
  rfl

theorem outcomes_cons (frame : Frame) (frames : List Frame) (k : Nat) :
    outcomes (frame :: frames) (k + 1) = .frame (.ok frame) :: outcomes frames k := by
  rw [outcomes, outcomes, List.take_succ_cons, List.length_cons, Nat.add_sub_add_right]
  rfl

/-! ### Frame after frame -/

/-- The decoder after `k` calls for a frame. -/
def after (f : AnimatedFile) : Nat → Decoder
  | 0 => f.loaded
  | k + 1 => f.decoded (f.later.drop k)

theorem framesRemaining_after (f : AnimatedFile) (k : Nat) :
    (f.after k).framesRemaining = some (f.frames.length - k) := by
  cases k with
  | zero => rfl
  | succ k =>
    show some (f.frames.length - (f.frames.length - (f.later.drop k).length)) = _
    rw [f.length_frames, List.length_drop]
    congr 1
    omega

theorem isAtEnd_decoded_nil (f : AnimatedFile) : (f.decoded []).IsAtEnd where
  toIsCoherent := Decoder.isCoherent_of_header rfl (fun h => nomatch h) (fun h => nomatch h) rfl
  loaded := .inr rfl
  frames_le := Nat.le_refl _

section Runs

variable {i : Deflate.Inflater} (hi : i.ReadsOneStream)

include hi

theorem performAll_decoded (f : AnimatedFile) {later : List (WrittenFrame f.header Tag.fdat)}
    (hlater : later.length ≤ f.later.length) (k : Nat) :
    Decoder.BySlices.performAll i (f.decoded later) (List.replicate k .frame)
      = (outcomes (later.map WrittenFrame.frame) k, f.decoded (later.drop k)) := by
  induction later generalizing k with
  | nil =>
    rw [Decoder.performAll_eq_map (Decoder.perform_of_isAtEnd f.isAtEnd_decoded_nil rfl),
      List.map_replicate, List.map_nil, outcomes_nil, List.drop_nil]
    rfl
  | cons x later ih =>
    rw [List.length_cons] at hlater
    cases k with
    | zero =>
      rw [outcomes_zero]
      rfl
    | succ k =>
      have hnext : Decoder.BySlices.nextFrame i (f.decoded (x :: later))
          = (.ok x.frame, f.decoded later) :=
        f.nextFrame_decoded hi (by omega)
      rw [List.replicate_succ, List.map_cons, outcomes_cons, List.drop_succ_cons]
      simp only [Decoder.BySlices.performAll, Decoder.BySlices.perform, hnext, ih (by omega) k]

theorem performAll_loaded (f : AnimatedFile) (k : Nat) :
    Decoder.BySlices.performAll i f.loaded (List.replicate k .frame)
      = (outcomes f.frames k, f.after k) := by
  cases k with
  | zero =>
    rw [outcomes_zero]
    rfl
  | succ k =>
    rw [List.replicate_succ, frames, outcomes_cons]
    simp only [Decoder.BySlices.performAll, Decoder.BySlices.perform, f.nextFrame_loaded hi,
      f.performAll_decoded hi (Nat.le_refl _) k]
    rfl

end Runs

/-- Whatever the filters, the blocks of the streams and their divisions into data chunks are, call
after call gives one frame after the other, and then the end of the frames for ever. The frames that
remain are counted down to none. The inflater may be any that reads its slices as one stream. -/
theorem performAll_ofBytes {i : Deflate.Inflater} (hi : i.ReadsOneStream) (f : AnimatedFile)
    (k : Nat) :
    f.frames.length = f.animation.frames + (if f.opening.control.isSome then 0 else 1)
      ∧ (∃ d, Decoder.BySlices.performAll i (Decoder.ofBytes f.toBytes)
            (.metadata :: List.replicate k .frame)
          = (.metadata (.ok ()) :: outcomes f.frames k, d)
        ∧ d.framesRemaining = some (f.frames.length - k))
      ∧ ∃ d, Decoder.BySlices.performAll i (Decoder.ofBytes f.toBytes)
            (List.replicate (k + 1) .frame)
          = (outcomes f.frames (k + 1), d)
        ∧ d.framesRemaining = some (f.frames.length - (k + 1)) := by
  have hmetadata := f.readMetadata_ofBytes
  have hnext : Decoder.BySlices.nextFrame i (Decoder.ofBytes f.toBytes)
      = Decoder.BySlices.nextFrame i f.loaded :=
    (f.nextFrame_toBytes hi).trans (f.nextFrame_loaded hi).symm
  refine ⟨?_, ⟨f.after k, ?_, f.framesRemaining_after k⟩,
    ⟨f.after (k + 1), ?_, f.framesRemaining_after (k + 1)⟩⟩
  · rw [f.length_frames, animation]
    cases f.opening with
    | frame first whole =>
      simp only [Opening.count, Opening.control, Option.isSome_some, if_true]
      omega
    | still image =>
      simp only [Opening.count, Opening.control, Option.isSome_none, Bool.false_eq_true, if_false]
      omega
  · simp only [Decoder.BySlices.performAll, Decoder.BySlices.perform, hmetadata,
      f.performAll_loaded hi k]
  · rw [← f.performAll_loaded hi (k + 1), List.replicate_succ]
    simp only [Decoder.BySlices.performAll, Decoder.BySlices.perform, hnext]

def smallHeader : Header := ⟨3, 2, 4, .indexed⟩

def firstFrame : WrittenFrame smallHeader Tag.idat where
  control := ⟨7, 3, 2, 0, 0, 1, 50, .keep, .source⟩
  writable := ⟨by decide, by decide, by decide⟩
  width_pos := by decide
  height_pos := by decide
  right_le := by decide
  bottom_le := by decide
  crc := 1
  crc_lt := by decide
  image :=
    { image := StillFile.smallImage
      allocatable := by decide
      stream := StillFile.smallStream
      run := StillFile.smallRun }

def pixelImage : FilteredImage smallHeader 1 1 where
  rows := [(.up, [0x20])]
  length_rows := rfl
  length_row := by decide
  padded := by decide

def pixelStream : Deflate.StoredStream pixelImage.lines where
  blocks := []
  last := pixelImage.lines
  checksum := [0, 0, 0, 0]
  joined := by decide
  blocks_le := by decide
  last_le := by decide
  length_checksum := rfl

def secondFrame : WrittenFrame smallHeader Tag.fdat where
  control := ⟨3, 1, 1, 2, 1, 7, 0, .previous, .over⟩
  writable := ⟨by decide, by decide, by decide⟩
  width_pos := by decide
  height_pos := by decide
  right_le := by decide
  bottom_le := by decide
  crc := 1
  crc_lt := by decide
  image :=
    { image := pixelImage
      allocatable := by decide
      stream := pixelStream
      run :=
        { chunks := [⟨Tag.fdat, [9, 9, 9, 9], 0⟩,
            ⟨Tag.fdat, [0, 0, 0, 1] ++ pixelStream.toBytes.take 4, 0⟩,
            ⟨Tag.fdat, [0, 0, 0, 1] ++ pixelStream.toBytes.drop 4, 0⟩]
          ne_nil := by decide
          tag_eq := by decide
          writable := by decide
          start_le := by decide
          joined := by decide } }

def smallAnimation : AnimatedFile where
  header := smallHeader
  accepted := ⟨by decide, by decide, by decide, by decide, by decide, by decide⟩
  headerCrc := 11
  headerCrc_lt := by decide
  palette := [⟨Tag.plte, [255, 0, 0, 0, 255, 0], 7⟩]
  arePalette := ⟨fun h => absurd rfl h, fun _ => ⟨_, rfl, rfl, by decide, by decide⟩⟩
  palettePlace := 1
  plays := 12
  plays_lt := by decide
  animationCrc := 13
  animationCrc_lt := by decide
  opening := .frame firstFrame ⟨rfl, rfl, rfl, rfl⟩
  later := [secondFrame]
  count_pos := by decide
  count_lt := by decide
  endCrc := 14
  endCrc_lt := by decide

theorem nextFrame_smallAnimation {i : Deflate.Inflater} (hi : i.ReadsOneStream) :
    Decoder.BySlices.nextFrame i (smallAnimation.decoded smallAnimation.later)
      = (.ok secondFrame.frame, smallAnimation.decoded []) :=
  smallAnimation.nextFrame_decoded hi Nat.zero_lt_one

theorem performAll_ofBytes_smallAnimation :
    ∃ d, Decoder.BySlices.performAll Deflate.Inflater.rereading
          (Decoder.ofBytes smallAnimation.toBytes) (List.replicate 3 .frame)
        = ([.frame (.ok ⟨[0x12, 0x30, 0x21, 0x40], 2, 0, 0, 3, 2, 20, .keep, .source⟩),
            .frame (.ok ⟨[0x20], 1, 2, 1, 1, 1, 70, .previous, .over⟩),
            .frame (.error .endOfStream)], d)
      ∧ d.framesRemaining = some 0 :=
  (performAll_ofBytes Deflate.Inflater.readsOneStream_rereading smallAnimation 2).2.2

end AnimatedFile

end DialGraphics.Png
