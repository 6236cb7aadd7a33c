import DialGraphics.Proofs.Png.FirstError
import Mathlib.Data.List.Induction

/-!
# Implied steps

Every operation does the steps before it that are still to be done. It makes no difference if they
are asked for by themselves: the frames are the same, and so is the decoder after a frame.
-/

namespace DialGraphics.Png.Decoder

/-! ### Calls -/

/-- A call on a decoder: an operation, or a question that leaves it as it is. -/
inductive Call
  | operation (op : Operation)
  | framesRemaining
  deriving DecidableEq, Repr

inductive Answer
  | outcome (outcome : Outcome)
  | framesRemaining (count : Option Nat)

namespace BySlices

variable (i : Deflate.Inflater)

def answer (d : Decoder) : Call → Answer × Decoder
  | .operation op => (.outcome (perform i d op).1, (perform i d op).2)
  | .framesRemaining => (.framesRemaining d.framesRemaining, d)

def answerAll (d : Decoder) : List Call → List Answer × Decoder
  | [] => ([], d)
  | call :: calls =>
    let (first, d) := answer i d call
    let (others, d) := answerAll d calls
    (first :: others, d)

/-- The results of `n` calls for a frame with nothing in between. -/
def decodeFrames (d : Decoder) : Nat → List (Except PngError Frame) × Decoder
  | 0 => ([], d)
  | n + 1 =>
    let (results, d) := decodeFrames d n
    (results ++ [(nextFrame i d).1], (nextFrame i d).2)

end BySlices

def Outcome.frame? : Outcome → Option (Except PngError Frame)
  | .frame result => some result
  | _ => none

def Answer.frame? : Answer → Option (Except PngError Frame)
  | .outcome o => o.frame?
  | .framesRemaining _ => none

/-- What the calls for a frame have given, in order. -/
def frameResults (answers : List Answer) : List (Except PngError Frame) :=
  answers.filterMap Answer.frame?

def frameCall : Call := .operation .frame

variable {i : Deflate.Inflater} {d : Decoder}

theorem answerAll_concat (i : Deflate.Inflater) (d : Decoder) (calls : List Call) (call : Call) :
    BySlices.answerAll i d (calls ++ [call])
      = ((BySlices.answerAll i d calls).1
          ++ [(BySlices.answer i (BySlices.answerAll i d calls).2 call).1],
        (BySlices.answer i (BySlices.answerAll i d calls).2 call).2) := by
  induction calls generalizing d with
  | nil => rfl
  | cons first calls ih =>
    simp only [List.cons_append, BySlices.answerAll]
    rw [ih]

theorem filterMap_concat {α β : Type} (f : α → Option β) (xs : List α) (x : α) :
    (xs ++ [x]).filterMap f = xs.filterMap f ++ (f x).toList := by
  rw [List.filterMap_append]
  cases hx : f x with
  | none =>
    rw [List.filterMap_cons_none hx]
    rfl
  | some y =>
    rw [List.filterMap_cons_some hx]
    rfl

theorem frameResults_concat (answers : List Answer) (last : Answer) :
    frameResults (answers ++ [last]) = frameResults answers ++ last.frame?.toList :=
  filterMap_concat ..

theorem length_decodeFrames (i : Deflate.Inflater) (d : Decoder) (n : Nat) :
    (BySlices.decodeFrames i d n).1.length = n := by
  induction n with
  | zero => rfl
  | succ n ih => rw [BySlices.decodeFrames, List.length_append, ih, List.length_singleton]

theorem isCoherent_answer (i : Deflate.Inflater) (hd : d.IsCoherent) (call : Call) :
    (BySlices.answer i d call).2.IsCoherent := by
  cases call with
  | operation op => exact (perform_moves i hd op).isCoherent
  | framesRemaining => exact hd

theorem isCoherent_answerAll (i : Deflate.Inflater) (hd : d.IsCoherent) (calls : List Call) :
    (BySlices.answerAll i d calls).2.IsCoherent := by
  induction calls generalizing d with
  | nil => exact hd
  | cons call calls ih => exact ih (isCoherent_answer i hd call)

/-! ### What comes before a frame -/

theorem nextFrame_of_readMetadata_eq {e : Decoder} (hd : d.IsCoherent) (hstage : d.stage ≠ .failed)
    (hother : e.stage ≠ .failed) (h : e.readMetadata = d.readMetadata) :
    BySlices.nextFrame i e = BySlices.nextFrame i d := by
  cases hr : d.readMetadata with
  | mk result next =>
    cases result with
    | error cause => rw [nextFrame_of_error hstage hr, nextFrame_of_error hother (h.trans hr)]
    | ok _ =>
      obtain ⟨-, -, ⟨header, hheader⟩, -⟩ := loaded_of_readMetadata hd hr
      rw [nextFrame_of_ok hstage hr hheader, nextFrame_of_ok hother (h.trans hr) hheader]

/-- A step that has failed, or that has come to the end, gives the same to the next frame. -/
theorem Leads.nextFrame_of_error {α : Type} {goal : Stage} {e : PngError} {next : Decoder}
    (h : Leads d goal ((.error e, next) : Except PngError α × Decoder)) :
    BySlices.nextFrame i next = (.error e, next) := by
  cases h with
  | fails defect stage error =>
    simp only [BySlices.nextFrame, stage, retainedError, error]
    rfl
  | ends atEnd forward =>
    obtain ⟨hunfailed, hfresh⟩ := unfailed_of_loaded atEnd.loaded
    obtain ⟨h, hheader⟩ := atEnd.exists_header hunfailed hfresh
    rw [nextFrame_eq_decodeNext atEnd.loaded hheader, BySlices.decodeNext, if_pos atEnd.frames_le]

theorem nextFrame_after_readMetadata (hd : d.IsCoherent) :
    BySlices.nextFrame i d.readMetadata.2 = BySlices.nextFrame i d := by
  by_cases hstage : d.stage = .failed
  · rw [readMetadata_of_failed hstage]
  · have hleads := readMetadata_leads hd
    cases hr : d.readMetadata with
    | mk result next =>
      rw [hr] at hleads
      cases result with
      | error e => rw [nextFrame_of_error hstage hr, hleads.nextFrame_of_error]
      | ok _ =>
        obtain ⟨-, hloaded, ⟨h, hheader⟩, -⟩ := loaded_of_readMetadata hd hr
        rw [nextFrame_of_ok hstage hr hheader, nextFrame_eq_decodeNext hloaded hheader]

theorem nextFrame_after_readHeader (hd : d.IsCoherent) :
    BySlices.nextFrame i d.readHeader.2 = BySlices.nextFrame i d := by
  by_cases hstage : d.stage = .failed
  · rw [readHeader_of_failed hstage]
  · cases hheader : d.header with
    | some h => rw [readHeader_of_some hstage hheader]
    | none =>
      have hfresh : d.stage = .fresh ∨ d.stage = .header :=
        .inl (hd.fresh_of_header hstage hheader)
      have hleads := readHeader_leads hd
      cases hr : d.readHeader with
      | mk result next =>
        rw [hr] at hleads
        cases result with
        | error e =>
          rw [nextFrame_of_error hstage (readMetadata_of_error hfresh hr),
            hleads.nextFrame_of_error]
        | ok h =>
          -- the header is there now, so what is left of the metadata is the same scan
          obtain ⟨hsome, hrank⟩ := readHeader_eq_ok hfresh hr
          obtain ⟨-, hunfailed, -, hreached⟩ := hleads.of_ok
          have hnext : next.stage = .fresh ∨ next.stage = .header := by
            cases hs : next.stage with
            | fresh => exact .inl rfl
            | header => exact .inr rfl
            | _ =>
              rw [hs] at hrank
              exact absurd hrank (by decide)
          refine nextFrame_of_readMetadata_eq hd hstage hunfailed ?_
          rw [readMetadata_of_ok hnext (readHeader_of_some hunfailed hsome),
            readMetadata_of_ok hfresh hr]

theorem nextFrame_after_answer (hd : d.IsCoherent) {call : Call} (hcall : call ≠ frameCall) :
    BySlices.nextFrame i (BySlices.answer i d call).2 = BySlices.nextFrame i d := by
  cases call with
  | framesRemaining => rfl
  | operation op =>
    cases op with
    | header => exact nextFrame_after_readHeader hd
    | metadata => exact nextFrame_after_readMetadata hd
    | frame => exact absurd rfl hcall

theorem frame?_answer {call : Call} (hcall : call ≠ frameCall) (i : Deflate.Inflater)
    (d : Decoder) : (BySlices.answer i d call).1.frame? = none := by
  cases call with
  | framesRemaining => rfl
  | operation op =>
    cases op with
    | header => rfl
    | metadata => rfl
    | frame => exact absurd rfl hcall

/-! ### Runs -/

/-- Of the calls in a run only those for a frame matter to its frames, and to what comes after. -/
theorem frameResults_answerAll (i : Deflate.Inflater) (hd : d.IsCoherent) (calls : List Call) :
    frameResults (BySlices.answerAll i d calls).1
        = (BySlices.decodeFrames i d (calls.count frameCall)).1
      ∧ BySlices.nextFrame i (BySlices.answerAll i d calls).2
        = BySlices.nextFrame i (BySlices.decodeFrames i d (calls.count frameCall)).2 := by
  -- by the last call: it is for a frame, or leaves the next frame as it is
  induction calls using List.reverseRecOn with
  | nil => exact ⟨rfl, rfl⟩
  | append_singleton calls call ih =>
    obtain ⟨hresults, hnext⟩ := ih
    have hcoherent := isCoherent_answerAll i hd calls
    rw [answerAll_concat, frameResults_concat, hresults]
    by_cases hcall : call = frameCall
    · subst hcall
      have hframe : BySlices.answer i (BySlices.answerAll i d calls).2 frameCall
          = (.outcome (.frame (BySlices.nextFrame i (BySlices.answerAll i d calls).2).1),
            (BySlices.nextFrame i (BySlices.answerAll i d calls).2).2) := rfl
      rw [hframe, hnext, List.count_append, List.count_singleton_self]
      exact ⟨rfl, rfl⟩
    · have hcount : (calls ++ [call]).count frameCall = calls.count frameCall := by
        rw [List.count_append, List.count_singleton, if_neg (by simpa using hcall)]
        rfl
      rw [frame?_answer hcall, hcount]
      refine ⟨List.append_nil _, ?_⟩
      rw [nextFrame_after_answer hcoherent hcall]
      exact hnext

theorem answerAll_of_getLast? (hd : d.IsCoherent) {calls : List Call}
    (hlast : calls.getLast? = some frameCall) :
    (BySlices.answerAll i d calls).2
      = (BySlices.decodeFrames i d (calls.count frameCall)).2 := by
  obtain ⟨front, rfl⟩ := List.getLast?_eq_some_iff.1 hlast
  obtain ⟨-, hnext⟩ := frameResults_answerAll i hd front
  rw [answerAll_concat, List.count_append, List.count_singleton_self]
  exact congrArg Prod.snd hnext

/-- Two runs with the same number of calls for a frame give the same frames and failures, whatever
they ask for in between and whatever the inflater makes of image data. If both end with such a call,
the decoder is the same in all it has: its stage, its header and metadata, the frames that remain,
and the cause of its failure. -/
theorem frames_of_any_calls (i : Deflate.Inflater) (bytes : Bytes) {calls other : List Call}
    (hcount : calls.count frameCall = other.count frameCall) :
    let run := BySlices.answerAll i (ofBytes bytes) calls
    let otherRun := BySlices.answerAll i (ofBytes bytes) other
    frameResults run.1 = frameResults otherRun.1
      ∧ (frameResults run.1).length = calls.count frameCall
      ∧ (calls.getLast? = some frameCall → other.getLast? = some frameCall →
        run.2 = otherRun.2) := by
  intro run otherRun
  have hd := isCoherent_ofBytes bytes
  have hresults : frameResults run.1
      = (BySlices.decodeFrames i (ofBytes bytes) (calls.count frameCall)).1 :=
    (frameResults_answerAll i hd calls).1
  have hother : frameResults otherRun.1
      = (BySlices.decodeFrames i (ofBytes bytes) (other.count frameCall)).1 :=
    (frameResults_answerAll i hd other).1
  refine ⟨?_, ?_, fun hlast hotherLast => ?_⟩
  · rw [hresults, hother, hcount]
  · rw [hresults, length_decodeFrames]
  · exact (answerAll_of_getLast? hd hlast).trans
      (hcount ▸ (answerAll_of_getLast? hd hotherLast).symm)

/-- Each step asked for by itself, some more than once, and one frame. -/
def roundabout : List Call :=
  [.operation .header, .operation .metadata, .framesRemaining, .operation .header, frameCall]

theorem frames_of_any_calls_unknownChunkFile :
    let run := BySlices.answerAll Deflate.Inflater.rereading (ofBytes unknownChunkFile)
    frameResults (run roundabout).1 = [.error .unsupportedChunk]
      ∧ (run roundabout).2 = (run [frameCall]).2 := by
  intro run
  have hcount : roundabout.count frameCall = [frameCall].count frameCall := rfl
  have hfirst : frameResults (run [frameCall]).1 = [.error .unsupportedChunk] := by
    simp only [run]
    rw [unknownChunkFile, ofBytes_encodeFile (by decide)]
    rfl
  obtain ⟨hresults, -, hlast⟩ :=
    frames_of_any_calls Deflate.Inflater.rereading unknownChunkFile hcount
  exact ⟨hresults.trans hfirst, hlast rfl rfl⟩

end DialGraphics.Png.Decoder
