import DialGraphics.Proofs.Png.AnimatedImage
import DialGraphics.Proofs.Png.ChunksAhead
import Mathlib.Data.List.Basic

/-!
# Unknown chunks

A chunk that nobody knows and that may be skipped can stand anywhere behind the header but within
image data. No operation shows that it is there.
-/

namespace DialGraphics.Png

namespace Chunk

/-- The chunk may be skipped, and its tag is none of those that have a meaning all the same. -/
def IsUnknown (c : Chunk) : Prop :=
  c.tag.isAncillary = true ∧ c.tag ∉ [Tag.trns, Tag.actl, Tag.fctl, Tag.fdat]

instance (c : Chunk) : Decidable c.IsUnknown := inferInstanceAs (Decidable (_ ∧ _))

theorem IsUnknown.tag_ne {c : Chunk} (hc : c.IsUnknown) {tag : Tag}
    (htag : Decoder.isKnown tag = true) : c.tag ≠ tag := by
  obtain ⟨hancillary, hmem⟩ := hc
  rintro rfl
  have hknown : c.tag ∈ [Tag.ihdr, Tag.plte, Tag.idat, Tag.iend]
      ++ [Tag.trns, Tag.actl, Tag.fctl, Tag.fdat] := List.contains_iff_mem.1 htag
  -- the first four must not be skipped
  have hcritical : ∀ t ∈ [Tag.ihdr, Tag.plte, Tag.idat, Tag.iend], t.isAncillary = false := by
    decide
  rcases List.mem_append.1 hknown with hfirst | hlast
  · rw [hcritical _ hfirst] at hancillary
    cases hancillary
  · exact hmem hlast

end Chunk

variable {x : Chunk}

theorem Metadata.scan_unknown (hx : x.IsUnknown) (h : Header) (m : Metadata) (rest : List Chunk) :
    scan h m (x :: rest) = scan h m rest := by
  have hne : ∀ {tag}, Decoder.isKnown tag = true → x.tag ≠ tag := hx.tag_ne
  have hplaced : isMisplaced x.tag = false := by
    rw [Bool.eq_false_iff]
    intro hmisplaced
    simp only [isMisplaced, Bool.or_eq_true, beq_iff_eq] at hmisplaced
    rcases hmisplaced with (htag | htag) | htag <;> exact hne rfl htag
  refine scan_absorbed (hne rfl) ?_ rest
  rw [absorb, if_neg (hne rfl), if_neg (hne rfl), if_neg (hne rfl), if_neg (hne rfl), hplaced,
    if_neg Bool.false_ne_true, if_pos hx.1]

theorem Decoder.seek_unknown (hx : x.IsUnknown) (h : Header) (first animated : Bool)
    (control : Option FrameControl) (rest : List Chunk) :
    seek h first animated control (x :: rest) = seek h first animated control rest := by
  have hknown : isKnown x.tag = false := Bool.eq_false_iff.2 fun h => hx.tag_ne h rfl
  rw [seek, if_neg fun h => hx.tag_ne rfl h.1, if_neg fun h => hx.tag_ne rfl h.1,
    if_neg fun h => hx.tag_ne rfl h.1, if_neg (hx.tag_ne rfl), hknown,
    if_neg Bool.false_ne_true, if_pos hx.1]

/-! ### Chunks with unknown ones in between -/

def Chunk.IsImageData (c : Chunk) : Prop := c.tag = Tag.idat ∨ c.tag = Tag.fdat

theorem Chunk.IsUnknown.tag_ne_of_isImageData (hx : x.IsUnknown) {c : Chunk}
    (hc : c.IsImageData) : x.tag ≠ c.tag := by
  rcases hc with hc | hc <;> rw [hc] <;> exact hx.tag_ne rfl

/-- The second list is the first with unknown chunks in between, but none of them breaks a run of
image data. -/
inductive Interspersed : List Chunk → List Chunk → Prop
  | nil : Interspersed [] []
  | same (c : Chunk) {chunks other : List Chunk} (rest : Interspersed chunks other)
      (unbroken : c.IsImageData → ∀ d ∈ chunks.head?, d.tag = c.tag → other.head? = some d) :
      Interspersed (c :: chunks) (c :: other)
  | unknown {x : Chunk} (isUnknown : x.IsUnknown) {chunks other : List Chunk}
      (rest : Interspersed chunks other) : Interspersed chunks (x :: other)

namespace Interspersed

variable {chunks other : List Chunk}

theorem refl (chunks : List Chunk) : Interspersed chunks chunks := by
  induction chunks with
  | nil => exact .nil
  | cons c chunks ih => exact .same c ih fun _ _ hd _ => hd

theorem insert (hx : x.IsUnknown) {front behind : List Chunk}
    (hseam : ∀ c ∈ front.getLast?, c.IsImageData → ∀ d ∈ behind.head?, d.tag ≠ c.tag) :
    Interspersed (front ++ behind) (front ++ x :: behind) := by
  induction front with
  | nil => exact .unknown hx (refl behind)
  | cons c front ih =>
    refine .same c (ih fun last hlast => hseam last (List.mem_getLast?_cons hlast)) ?_
    cases front with
    | nil => exact fun hc d hd htag => absurd htag (hseam c rfl hc d hd)
    | cons e front => exact fun _ _ hd _ => hd

/-- The run of image data in front is the same, and what is behind it is still alike. -/
theorem takeWhile_eq (h : Interspersed chunks other) {first : Chunk} (hfirst : first.IsImageData)
    (unbroken : ∀ d ∈ chunks.head?, d.tag = first.tag → other.head? = some d) :
    chunks.takeWhile (·.tag = first.tag) = other.takeWhile (·.tag = first.tag)
      ∧ Interspersed (chunks.dropWhile (·.tag = first.tag))
        (other.dropWhile (·.tag = first.tag)) := by
  induction h with
  | nil => exact ⟨rfl, .nil⟩
  | same c rest restUnbroken ih =>
    by_cases hc : c.tag = first.tag
    · have hdata : c.IsImageData := by
        rw [Chunk.IsImageData, hc]
        exact hfirst
      obtain ⟨htake, hdrop⟩ := ih (hc ▸ restUnbroken hdata)
      rw [List.takeWhile_cons_of_pos (by simpa using hc),
        List.takeWhile_cons_of_pos (by simpa using hc), htake,
        List.dropWhile_cons_of_pos (by simpa using hc),
        List.dropWhile_cons_of_pos (by simpa using hc)]
      exact ⟨rfl, hdrop⟩
    · rw [List.takeWhile_cons_of_neg (by simpa using hc),
        List.takeWhile_cons_of_neg (by simpa using hc),
        List.dropWhile_cons_of_neg (by simpa using hc),
        List.dropWhile_cons_of_neg (by simpa using hc)]
      exact ⟨rfl, .same c rest restUnbroken⟩
  | @unknown x hx chunks other rest ih =>
    have hne := hx.tag_ne_of_isImageData hfirst
    rw [List.takeWhile_cons_of_neg (by simpa using hne),
      List.dropWhile_cons_of_neg (by simpa using hne)]
    -- the run is not in front on the other side either, for there it would be broken
    cases chunks with
    | nil => exact ⟨rfl, .unknown hx rest⟩
    | cons d chunks =>
      have hd : d.tag ≠ first.tag := by
        intro htag
        cases unbroken d rfl htag
        exact hne htag
      rw [List.takeWhile_cons_of_neg (by simpa using hd),
        List.dropWhile_cons_of_neg (by simpa using hd)]
      exact ⟨rfl, .unknown hx rest⟩

theorem runAgrees (i : Deflate.Inflater) {c : Chunk}
    (h : Interspersed (c :: chunks) (c :: other)) (hc : c.IsImageData) :
    Decoder.RunAgrees i Interspersed (payloadRun? (c :: chunks)) (payloadRun? (c :: other)) := by
  obtain ⟨htake, hdrop⟩ := h.takeWhile_eq hc fun d hd _ => hd
  simp only [payloadRun?]
  rw [htake]
  cases ((c :: other).takeWhile (·.tag = c.tag)).mapM payload? with
  | none => exact .cut
  | some payloads => exact .whole (fun _ => rfl) hdrop

theorem scanAgrees (hi : Interspersed chunks other) (h : Header) (m : Metadata) :
    Decoder.ScanAgrees Interspersed (Metadata.scan h m chunks) (Metadata.scan h m other) := by
  induction hi generalizing m with
  | nil => exact .failed m .malformed
  | same c rest unbroken ih =>
    exact Decoder.scanAgrees_cons h m (fun _ => .same c rest unbroken) ih
  | unknown hx rest ih =>
    rw [Metadata.scan_unknown hx]
    exact ih m

theorem seekAgrees (i : Deflate.Inflater) (hi : Interspersed chunks other) (h : Header)
    (first animated : Bool) (control : Option FrameControl) :
    Decoder.SeekAgrees i Interspersed (Decoder.seek h first animated control chunks)
      (Decoder.seek h first animated control other) := by
  induction hi generalizing control with
  | nil => exact .failed .malformed
  | same c rest unbroken ih =>
    exact Decoder.seekAgrees_cons h first animated control rest
      ((Interspersed.same c rest unbroken).runAgrees i) ih
  | unknown hx rest ih =>
    rw [Decoder.seek_unknown hx]
    exact ih control

end Interspersed

namespace Decoder

/-- The first chunk is the header's place, so it is the same on both sides. -/
inductive InterspersedBehind : List Chunk → List Chunk → Prop
  | first (c : Chunk) {rest others : List Chunk} (behind : Interspersed rest others) :
      InterspersedBehind (c :: rest) (c :: others)

def interspersion (i : Deflate.Inflater) : Simulation i where
  unread := InterspersedBehind
  behind := Interspersed
  header_agrees := by
    rintro _ _ ⟨c, behind⟩
    exact headerAgrees_cons c behind
  scan_agrees := Interspersed.scanAgrees
  seek_agrees := Interspersed.seekAgrees i

/-- A chunk that is unknown and may be skipped can be put behind any chunk of a file, only not
between two chunks of the same image data. Whatever the inflater makes of image data, every
operation gives the same as without it, and leaves the decoder in the same state. -/
theorem performAll_unknown (i : Deflate.Inflater) {front behind : List Chunk} {x : Chunk}
    (hx : x.IsUnknown) (hfront : front ≠ [])
    (hseam : ∀ c ∈ front.getLast?, c.tag = Tag.idat ∨ c.tag = Tag.fdat →
      ∀ d ∈ behind.head?, d.tag ≠ c.tag)
    (hw : ∀ c ∈ front ++ x :: behind, c.IsWritable) {tail : Bytes}
    (htail : Chunk.pull? tail = none) (ops : List Operation) :
    let run :=
      BySlices.performAll i (ofBytes (Chunk.encodeFile (front ++ behind) ++ tail)) ops
    let otherRun :=
      BySlices.performAll i (ofBytes (Chunk.encodeFile (front ++ x :: behind) ++ tail)) ops
    run.1 = otherRun.1 ∧ run.2.stage = otherRun.2.stage ∧ run.2.error = otherRun.2.error
      ∧ run.2.header = otherRun.2.header ∧ run.2.metadata = otherRun.2.metadata
      ∧ run.2.framesRemaining = otherRun.2.framesRemaining := by
  intro run otherRun
  have hunread : InterspersedBehind ((front ++ behind) ++ (Chunk.split tail).1)
      ((front ++ x :: behind) ++ (Chunk.split tail).1) := by
    rw [Chunk.split_of_pull?_eq_none htail, List.append_nil, List.append_nil]
    obtain ⟨c, front, rfl⟩ := List.exists_cons_of_ne_nil hfront
    exact .first c (.insert hx fun last hlast => hseam last (List.mem_getLast?_cons hlast))
  have hm : (interspersion i).Matches (ofBytes (Chunk.encodeFile (front ++ behind) ++ tail))
      (ofBytes (Chunk.encodeFile (front ++ x :: behind) ++ tail)) :=
    Simulation.matches_ofBytes hunread
      (fun c hc => hw c (((List.sublist_cons_self x behind).append_left front).subset hc)) hw
  exact (hm.performAll (isCoherent_ofBytes _) ops).same

def comment : Chunk := ⟨Tag.ofChars 't' 'E' 'X' 't', [65, 0, 66], 99⟩

/-- Here the comment is between the frame control of the second frame and its data. -/
theorem performAll_unknown_comment :
    (BySlices.performAll Deflate.Inflater.rereading
        (ofBytes (Chunk.encodeFile (AnimatedFile.smallAnimation.chunks.take 8
          ++ comment :: AnimatedFile.smallAnimation.chunks.drop 8) ++ [])) [.frame, .frame]).1
      = [.frame (.ok ⟨[0x12, 0x30, 0x21, 0x40], 2, 0, 0, 3, 2, 20, .keep, .source⟩),
        .frame (.ok ⟨[0x20], 1, 2, 1, 1, 1, 70, .previous, .over⟩)] := by
  have hunknown : comment.IsUnknown := by decide
  have hwritable : ∀ c ∈ AnimatedFile.smallAnimation.chunks.take 8
      ++ comment :: AnimatedFile.smallAnimation.chunks.drop 8, c.IsWritable := by decide
  have htail : Chunk.pull? [] = none := rfl
  obtain ⟨houtcomes, -⟩ := performAll_unknown Deflate.Inflater.rereading hunknown (by decide)
    (by decide) hwritable htail [.frame, .frame]
  have hi := Deflate.Inflater.readsOneStream_rereading
  rw [← houtcomes, List.take_append_drop, List.append_nil]
  change (BySlices.performAll _ (ofBytes AnimatedFile.smallAnimation.toBytes) [.frame, .frame]).1
    = _
  simp only [BySlices.performAll, BySlices.perform,
    AnimatedFile.smallAnimation.nextFrame_toBytes hi, AnimatedFile.nextFrame_smallAnimation hi]
  rfl

end Decoder

end DialGraphics.Png
