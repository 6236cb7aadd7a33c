import DialGraphics.Proofs.Png.SlicedRuns

/-!
# The first error

A decoder only goes forward, and its first error is final: every later operation gives it again and
changes nothing. The end of the frames is no error of that kind, but it is final too. An operation
has one of three effects, and each of them leaves behind what the next operation builds on.
-/

namespace DialGraphics

/-! ### Defects of a file -/

/-- A cause that lies in the file: neither the end of the frames nor a wrong use of the decoder. -/
def PngError.IsDefect (e : PngError) : Prop := e ≠ .endOfStream ∧ e ≠ .badParameter

instance (e : PngError) : Decidable e.IsDefect := inferInstanceAs (Decidable (_ ∧ _))

namespace Png

/-- If it fails, the cause lies in the file. -/
structure OnlyDefects {α : Type} (x : Except PngError α) : Prop where
  isDefect : ∀ {e}, x = .error e → e.IsDefect

section OnlyDefects

variable {α β : Type} {x y : Except PngError α}

theorem onlyDefects_ok (a : α) : OnlyDefects (.ok a) := ⟨fun h => nomatch h⟩

theorem onlyDefects_error {e : PngError} (h : e.IsDefect) :
    OnlyDefects (.error e : Except PngError α) := by
  constructor
  rintro _ ⟨⟩
  exact h

theorem onlyDefects_malformed : OnlyDefects (.error .malformed : Except PngError α) :=
  onlyDefects_error (by decide)

theorem OnlyDefects.ite {p : Prop} [Decidable p] (hx : OnlyDefects x) (hy : OnlyDefects y) :
    OnlyDefects (if p then x else y) := by
  split
  · exact hx
  · exact hy

theorem OnlyDefects.map (hx : OnlyDefects x) (f : α → β) : OnlyDefects (x.map f) := by
  cases x with
  | ok a => exact onlyDefects_ok _
  | error e => exact onlyDefects_error (hx.isDefect rfl)

end OnlyDefects

theorem Header.onlyDefects_check (width height depth color compression filter interlace : Nat) :
    OnlyDefects (check width height depth color compression filter interlace) := by
  refine .ite onlyDefects_malformed ?_
  cases ColorType.ofNumber? color with
  | none => exact onlyDefects_malformed
  | some type =>
    refine .ite onlyDefects_malformed (.ite onlyDefects_malformed ?_)
    exact .ite (onlyDefects_error (by decide))
      (.ite (onlyDefects_error (by decide)) (onlyDefects_ok _))

theorem Header.onlyDefects_ofChunk (c : Chunk) : OnlyDefects (ofChunk c) := by
  refine .ite onlyDefects_malformed ?_
  split
  · exact onlyDefects_check ..
  · exact onlyDefects_malformed

theorem AnimationControl.onlyDefects_ofChunk (c : Chunk) : OnlyDefects (ofChunk c) := by
  refine .ite onlyDefects_malformed ?_
  split
  · exact onlyDefects_malformed
  · split
    · exact onlyDefects_malformed
    · exact .ite onlyDefects_malformed (onlyDefects_ok _)

theorem FrameControl.onlyDefects_ofChunk (c : Chunk) (width height : Nat) :
    OnlyDefects (ofChunk c width height) := by
  refine .ite onlyDefects_malformed ?_
  split
  · exact onlyDefects_malformed
  · exact .ite (onlyDefects_ok _) onlyDefects_malformed

namespace Metadata

theorem onlyDefects_withPalette (m : Metadata) (h : Header) (data : Bytes) :
    OnlyDefects (m.withPalette h data) :=
  .ite onlyDefects_malformed (.ite (onlyDefects_ok _) (onlyDefects_ok _))

theorem onlyDefects_withTransparency (m : Metadata) (h : Header) (data : Bytes) :
    OnlyDefects (m.withTransparency h data) := by
  unfold withTransparency
  split
  · exact .ite (onlyDefects_ok _) onlyDefects_malformed
  · exact onlyDefects_ok _
  · exact onlyDefects_ok _
  · exact onlyDefects_malformed

theorem onlyDefects_absorb (h : Header) (m : Metadata) (c : Chunk) :
    OnlyDefects (absorb h m c) := by
  refine .ite (onlyDefects_withPalette ..) (.ite (onlyDefects_withTransparency ..) ?_)
  refine .ite ((AnimationControl.onlyDefects_ofChunk c).map _) (.ite ?_ ?_)
  · split
    · rename_i hf
      exact onlyDefects_error ((FrameControl.onlyDefects_ofChunk c h.width h.height).isDefect hf)
    · exact .ite (onlyDefects_ok _) onlyDefects_malformed
  · exact .ite onlyDefects_malformed (.ite (onlyDefects_ok _) (onlyDefects_error (by decide)))

theorem onlyDefects_scan (h : Header) (m : Metadata) (chunks : List Chunk) :
    OnlyDefects (scan h m chunks).2 := by
  induction chunks generalizing m with
  | nil => exact onlyDefects_malformed
  | cons c chunks ih =>
    rw [scan]
    split
    · exact onlyDefects_ok _
    · split
      · rename_i ha
        exact onlyDefects_error ((onlyDefects_absorb h m c).isDefect ha)
      · exact ih _

end Metadata

section Lines

variable (lines? : Nat → Option Bytes) (h : Header)

theorem onlyDefects_decodeLines (width height : Nat) :
    OnlyDefects (decodeLines lines? h width height) := by
  refine .ite (onlyDefects_error (by decide)) ?_
  split
  · exact onlyDefects_malformed
  · split
    · exact onlyDefects_malformed
    · exact onlyDefects_ok _

theorem Frame.onlyDefects_decodeLines (control : Option FrameControl) :
    OnlyDefects (Frame.decodeLines lines? h control) := by
  cases control with
  | none => exact (Png.onlyDefects_decodeLines ..).map _
  | some f => exact (Png.onlyDefects_decodeLines ..).map _

end Lines

theorem Decoder.isDefect_of_seek {h : Header} {first animated : Bool}
    {control : Option FrameControl} {chunks : List Chunk} {e : PngError}
    (he : seek h first animated control chunks = .failed e) : e.IsDefect := by
  induction chunks generalizing control with
  | nil =>
    cases he
    decide
  | cons c chunks ih =>
    rw [seek] at he
    split at he
    · cases he
    · split at he
      · cases he
      · split at he
        · split at he
          · rename_i hf
            cases he
            exact (FrameControl.onlyDefects_ofChunk c h.width h.height).isDefect hf
          · exact ih he
        · split at he
          · cases he
          · split at he
            · cases he
              decide
            · split at he
              · exact ih he
              · cases he
                decide

/-! ### Stages -/

/-- The place of a stage on the way through a file. A failure may follow on any other stage. -/
def Stage.rank : Stage → Nat
  | .fresh => 0
  | .header => 1
  | .loaded => 2
  | .decoded => 3
  | .failed => 4

namespace Decoder

/-- What holds of a decoder after any operations: it has a cause exactly if it has failed, and until
then a header exactly if it has left the first stage. -/
structure IsCoherent (d : Decoder) : Prop where
  isSome_error : d.error.isSome = true ↔ d.stage = .failed
  isDefect_error : ∀ e ∈ d.error, e.IsDefect
  isSome_header : d.stage ≠ .failed → (d.header.isSome = true ↔ d.stage ≠ .fresh)

/-- All frames are decoded. -/
structure IsAtEnd (d : Decoder) : Prop extends d.IsCoherent where
  loaded : d.stage = .loaded ∨ d.stage = .decoded
  frames_le : d.totalFrames ≤ d.framesDecoded

theorem isCoherent_ofBytes (bytes : Bytes) : (ofBytes bytes).IsCoherent := by
  have hfresh : ∀ signed chunks, IsCoherent { signed, chunks } := fun _ _ =>
    ⟨⟨fun h => (nomatch h), fun h => (nomatch h)⟩, fun _ h => (nomatch h),
      fun _ => ⟨fun h => (nomatch h), fun h => absurd rfl h⟩⟩
  unfold ofBytes
  split
  · exact hfresh _ _
  · exact hfresh _ _

variable {d : Decoder}

theorem unfailed_of_loaded (hloaded : d.stage = .loaded ∨ d.stage = .decoded) :
    d.stage ≠ .failed ∧ d.stage ≠ .fresh := by
  rcases hloaded with hs | hs <;> rw [hs] <;> decide

theorem rank_of_loaded (hloaded : d.stage = .loaded ∨ d.stage = .decoded) :
    Stage.loaded.rank ≤ d.stage.rank ∧ d.stage.rank ≤ Stage.decoded.rank := by
  rcases hloaded with hs | hs <;> rw [hs] <;> exact ⟨by decide, by decide⟩

theorem IsCoherent.error_eq_none (hd : d.IsCoherent) (hstage : d.stage ≠ .failed) :
    d.error = none := by
  cases herror : d.error with
  | none => rfl
  | some e => exact absurd (hd.isSome_error.1 (by rw [herror]; rfl)) hstage

theorem IsCoherent.exists_header (hd : d.IsCoherent) (hstage : d.stage ≠ .failed)
    (hfresh : d.stage ≠ .fresh) : ∃ h, d.header = some h :=
  Option.isSome_iff_exists.1 ((hd.isSome_header hstage).2 hfresh)

theorem IsCoherent.fresh_of_header (hd : d.IsCoherent) (hstage : d.stage ≠ .failed)
    (hheader : d.header = none) : d.stage = .fresh := by
  apply Decidable.byContradiction
  intro hfresh
  obtain ⟨h, hsome⟩ := hd.exists_header hstage hfresh
  cases hheader.symm.trans hsome

theorem isCoherent_of_failed {e : PngError} (hdefect : e.IsDefect) (hstage : d.stage = .failed)
    (herror : d.error = some e) : d.IsCoherent where
  isSome_error := by
    rw [herror, hstage]
    exact ⟨fun _ => rfl, fun _ => rfl⟩
  isDefect_error := by
    rw [herror]
    rintro _ ⟨⟩
    exact hdefect
  isSome_header := fun h => absurd hstage h

theorem isCoherent_of_header {h : Header} (hheader : d.header = some h) (hfresh : d.stage ≠ .fresh)
    (hstage : d.stage ≠ .failed) (herror : d.error = none) : d.IsCoherent where
  isSome_error := by
    rw [herror]
    exact ⟨fun h => (nomatch h), fun h => absurd h hstage⟩
  isDefect_error := by
    rw [herror]
    exact fun _ h => nomatch h
  isSome_header := by
    rw [hheader]
    exact fun _ => ⟨fun _ => hfresh, fun _ => rfl⟩

/-! ### Effects -/

/-- What an operation that is meant to bring `d` to the stage `goal` may give and leave behind: it
succeeds, it fails for good, or there are no more frames. -/
inductive Leads {α : Type} (d : Decoder) (goal : Stage) : Except PngError α × Decoder → Prop
  | succeeds {a : α} {next : Decoder} (coherent : next.IsCoherent) (unfailed : next.stage ≠ .failed)
      (forward : d.stage.rank ≤ next.stage.rank) (reached : goal.rank ≤ next.stage.rank) :
      Leads d goal (.ok a, next)
  | fails {e : PngError} {next : Decoder} (defect : e.IsDefect) (stage : next.stage = .failed)
      (error : next.error = some e) : Leads d goal (.error e, next)
  | ends {next : Decoder} (atEnd : next.IsAtEnd) (forward : d.stage.rank ≤ next.stage.rank) :
      Leads d goal (.error .endOfStream, next)

section Leads

variable {α : Type} {goal : Stage}

theorem leads_fail {e : PngError} {spoiled : Decoder} (hdefect : e.IsDefect)
    (herror : spoiled.error = none) :
    Leads d goal ((.error e, spoiled.fail e) : Except PngError α × Decoder) := by
  refine .fails hdefect rfl ?_
  rw [fail, herror]
  rfl

theorem leads_retained (hd : d.IsCoherent) (hstage : d.stage = .failed) :
    Leads d goal ((.error d.retainedError, d) : Except PngError α × Decoder) := by
  obtain ⟨e, herror⟩ := Option.isSome_iff_exists.1 (hd.isSome_error.2 hstage)
  have hretained : d.retainedError = e := by
    rw [retainedError, herror]
    rfl
  rw [hretained]
  exact .fails (hd.isDefect_error e herror) hstage herror

theorem leads_self {a : α} (hd : d.IsCoherent) (hstage : d.stage ≠ .failed)
    (hreached : goal.rank ≤ d.stage.rank) : Leads d goal (.ok a, d) :=
  .succeeds hd hstage (Nat.le_refl _) hreached

theorem leads_to {a : α} {h : Header} {next : Decoder} (hheader : next.header = some h)
    (herror : next.error = none) (hstage : next.stage = goal)
    (hgoal : goal ≠ .fresh ∧ goal ≠ .failed) (hrank : d.stage.rank ≤ goal.rank) :
    Leads d goal (.ok a, next) := by
  subst hstage
  exact .succeeds (isCoherent_of_header hheader hgoal.1 hgoal.2 herror) hgoal.2 hrank
    (Nat.le_refl _)

theorem Leads.of_ok {a : α} {next : Decoder} (h : Leads d goal (.ok a, next)) :
    next.IsCoherent ∧ next.stage ≠ .failed ∧ d.stage.rank ≤ next.stage.rank
      ∧ goal.rank ≤ next.stage.rank := by
  cases h with
  | succeeds coherent unfailed forward reached => exact ⟨coherent, unfailed, forward, reached⟩

theorem Leads.of_error {β : Type} {other : Stage} {e : PngError} {next : Decoder}
    (h : Leads d goal ((.error e, next) : Except PngError α × Decoder)) :
    Leads d other ((.error e, next) : Except PngError β × Decoder) := by
  cases h with
  | fails defect stage error => exact .fails defect stage error
  | ends atEnd forward => exact .ends atEnd forward

theorem Leads.after {before : Decoder} {r : Except PngError α × Decoder} (h : Leads d goal r)
    (hrank : before.stage.rank ≤ d.stage.rank) : Leads before goal r := by
  cases h with
  | succeeds coherent unfailed forward reached =>
    exact .succeeds coherent unfailed (Nat.le_trans hrank forward) reached
  | fails defect stage error => exact .fails defect stage error
  | ends atEnd forward => exact .ends atEnd (Nat.le_trans hrank forward)

end Leads

theorem readHeader_of_failed (hstage : d.stage = .failed) :
    d.readHeader = (.error d.retainedError, d) := by
  simp only [readHeader, hstage]

theorem readHeader_of_some {h : Header} (hstage : d.stage ≠ .failed) (hheader : d.header = some h) :
    d.readHeader = (.ok h, d) := by
  cases hs : d.stage with
  | failed => exact absurd hs hstage
  | _ => simp only [readHeader, hs, hheader]

theorem readHeader_leads (hd : d.IsCoherent) : Leads d .header d.readHeader := by
  unfold readHeader
  split
  · rename_i hstage
    exact leads_retained hd hstage
  · rename_i h hheader hstage
    have hfresh := (hd.isSome_header hstage).1 (by rw [hheader]; rfl)
    refine leads_self hd hstage ?_
    cases hs : d.stage with
    | fresh => exact absurd hs hfresh
    | _ => decide
  · rename_i hheader hstage
    have herror := hd.error_eq_none hstage
    have hfresh := hd.fresh_of_header hstage hheader
    split
    · exact leads_fail (by decide) herror
    · split
      · exact leads_fail (by decide) herror
      · split
        · rename_i hc
          exact leads_fail ((Header.onlyDefects_ofChunk _).isDefect hc) herror
        · have hrank : d.stage.rank ≤ Stage.header.rank := by
            rw [hfresh]
            exact Nat.zero_le _
          exact leads_to rfl herror rfl (by decide) hrank

theorem readHeader_eq_ok {h : Header} {next : Decoder}
    (hstage : d.stage = .fresh ∨ d.stage = .header) (hr : d.readHeader = (.ok h, next)) :
    next.header = some h ∧ next.stage.rank ≤ Stage.header.rank := by
  unfold readHeader at hr
  split at hr
  · cases hr
  · rename_i hheader _
    cases hr
    refine ⟨hheader, ?_⟩
    rcases hstage with hs | hs
    · rw [hs]
      decide
    · exact Nat.le_of_eq (congrArg Stage.rank hs)
  · split at hr
    · cases hr
    · split at hr
      · cases hr
      · split at hr
        · cases hr
        · cases hr
          exact ⟨rfl, Nat.le_refl _⟩

theorem scanMetadata_leads {h : Header} (hheader : d.header = some h) (herror : d.error = none)
    (hrank : d.stage.rank ≤ Stage.header.rank) : Leads d .loaded (d.scanMetadata h) := by
  unfold scanMetadata
  split
  · rename_i hscan
    have hdefect := Metadata.onlyDefects_scan h d.metadata d.chunks
    rw [hscan] at hdefect
    exact leads_fail (hdefect.isDefect rfl) herror
  · simp only
    split
    · exact leads_to hheader herror rfl (by decide) (Nat.le_succ_of_le hrank)
    · exact leads_fail (by decide) herror

theorem readMetadata_of_loaded (hloaded : d.stage = .loaded ∨ d.stage = .decoded) :
    d.readMetadata = (.ok (), d) := by
  rcases hloaded with hs | hs <;> simp only [readMetadata, hs]

theorem readMetadata_of_error {e : PngError} {next : Decoder}
    (hstage : d.stage = .fresh ∨ d.stage = .header) (hr : d.readHeader = (.error e, next)) :
    d.readMetadata = (.error e, next) := by
  rcases hstage with hs | hs <;> simp only [readMetadata, hs, hr]

theorem readMetadata_of_ok {h : Header} {next : Decoder}
    (hstage : d.stage = .fresh ∨ d.stage = .header) (hr : d.readHeader = (.ok h, next)) :
    d.readMetadata = next.scanMetadata h := by
  rcases hstage with hs | hs <;> simp only [readMetadata, hs, hr]

theorem readMetadata_of_failed (hstage : d.stage = .failed) :
    d.readMetadata = (.error d.retainedError, d) := by
  simp only [readMetadata, hstage]

theorem readMetadata_leads (hd : d.IsCoherent) : Leads d .loaded d.readMetadata := by
  have hself : d.stage = .loaded ∨ d.stage = .decoded → Leads d .loaded d.readMetadata := by
    intro hloaded
    rw [readMetadata_of_loaded hloaded]
    exact leads_self hd (unfailed_of_loaded hloaded).1 (rank_of_loaded hloaded).1
  -- what is left to do follows on the header
  have hscan : d.stage = .fresh ∨ d.stage = .header → Leads d .loaded d.readMetadata := by
    intro hstage
    have hheader := readHeader_leads hd
    generalize hr : d.readHeader = r at hheader
    obtain ⟨result, next⟩ := r
    cases result with
    | error e =>
      rw [readMetadata_of_error hstage hr]
      exact hheader.of_error
    | ok h =>
      obtain ⟨hsome, hrank⟩ := readHeader_eq_ok hstage hr
      obtain ⟨hcoherent, hunfailed, hforward, -⟩ := hheader.of_ok
      rw [readMetadata_of_ok hstage hr]
      exact (scanMetadata_leads hsome (hcoherent.error_eq_none hunfailed) hrank).after hforward
  cases hs : d.stage with
  | failed =>
    rw [readMetadata_of_failed hs]
    exact leads_retained hd hs
  | loaded => exact hself (.inl hs)
  | decoded => exact hself (.inr hs)
  | fresh => exact hscan (.inl hs)
  | header => exact hscan (.inr hs)

theorem loaded_of_readMetadata (hd : d.IsCoherent) {next : Decoder}
    (hr : d.readMetadata = (.ok (), next)) :
    next.IsCoherent ∧ (next.stage = .loaded ∨ next.stage = .decoded)
      ∧ (∃ h, next.header = some h) ∧ d.stage.rank ≤ next.stage.rank := by
  have hleads := readMetadata_leads hd
  rw [hr] at hleads
  obtain ⟨hcoherent, hunfailed, hforward, hreached⟩ := hleads.of_ok
  have hloaded : next.stage = .loaded ∨ next.stage = .decoded := by
    cases hs : next.stage with
    | loaded => exact .inl rfl
    | decoded => exact .inr rfl
    | failed => exact absurd hs hunfailed
    | fresh | header =>
      rw [hs] at hreached
      exact absurd hreached (by decide)
  exact ⟨hcoherent, hloaded,
    hcoherent.exists_header hunfailed (unfailed_of_loaded hloaded).2, hforward⟩

variable {i : Deflate.Inflater}

theorem nextFrame_of_error {e : PngError} {next : Decoder} (hstage : d.stage ≠ .failed)
    (hr : d.readMetadata = (.error e, next)) : BySlices.nextFrame i d = (.error e, next) := by
  cases hs : d.stage with
  | failed => exact absurd hs hstage
  | _ => simp only [BySlices.nextFrame, hs, hr]

theorem nextFrame_of_ok {next : Decoder} {h : Header} (hstage : d.stage ≠ .failed)
    (hr : d.readMetadata = (.ok (), next)) (hheader : next.header = some h) :
    BySlices.nextFrame i d = BySlices.decodeNext i next h := by
  cases hs : d.stage with
  | failed => exact absurd hs hstage
  | _ => simp only [BySlices.nextFrame, hs, hr, hheader]

theorem nextFrame_eq_decodeNext {h : Header} (hloaded : d.stage = .loaded ∨ d.stage = .decoded)
    (hheader : d.header = some h) : BySlices.nextFrame i d = BySlices.decodeNext i d h :=
  nextFrame_of_ok (unfailed_of_loaded hloaded).1 (readMetadata_of_loaded hloaded) hheader

theorem decodeNext_leads (i : Deflate.Inflater) {h : Header} (hd : d.IsCoherent)
    (hloaded : d.stage = .loaded ∨ d.stage = .decoded) (hheader : d.header = some h) :
    Leads d .decoded (BySlices.decodeNext i d h) := by
  obtain ⟨hunfailed, hfresh⟩ := unfailed_of_loaded hloaded
  have herror := hd.error_eq_none hunfailed
  unfold BySlices.decodeNext
  split
  · rename_i hframes
    exact .ends ⟨hd, hloaded, hframes⟩ (Nat.le_refl _)
  · split
    · rename_i hseek
      exact leads_fail (isDefect_of_seek hseek) herror
    · exact .ends ⟨isCoherent_of_header hheader hfresh hunfailed herror, hloaded, Nat.le_refl _⟩
        (Nat.le_refl _)
    · rw [decodeRun_eq]
      split
      · exact leads_fail (by decide) herror
      · split
        · rename_i hframe
          exact leads_fail ((Frame.onlyDefects_decodeLines ..).isDefect hframe) herror
        · exact leads_to hheader herror rfl (by decide) (rank_of_loaded hloaded).2

theorem nextFrame_leads (i : Deflate.Inflater) (hd : d.IsCoherent) :
    Leads d .decoded (BySlices.nextFrame i d) := by
  unfold BySlices.nextFrame
  split
  · rename_i hstage
    exact leads_retained hd hstage
  · have hmetadata := readMetadata_leads hd
    generalize hr : d.readMetadata = r at hmetadata
    obtain ⟨result, next⟩ := r
    cases result with
    | error e => exact hmetadata.of_error
    | ok _ =>
      obtain ⟨hcoherent, hloaded, ⟨h, hheader⟩, hforward⟩ := loaded_of_readMetadata hd hr
      simp only [hheader]
      exact (decodeNext_leads i hcoherent hloaded hheader).after hforward

/-! ### Runs -/

/-- The stage that an operation brings a decoder to. -/
def Operation.goal : Operation → Stage
  | .header => .header
  | .metadata => .loaded
  | .frame => .decoded

def Outcome.error? : Outcome → Option PngError
  | .header (.error e) | .metadata (.error e) | .frame (.error e) => some e
  | _ => none

/-- What an operation gives after a failure. -/
def Operation.failure (e : PngError) : Operation → Outcome
  | .header => .header (.error e)
  | .metadata => .metadata (.error e)
  | .frame => .frame (.error e)

/-- What an operation gives after the last frame. -/
def Operation.atEnd (h : Header) : Operation → Outcome
  | .header => .header (.ok h)
  | .metadata => .metadata (.ok ())
  | .frame => .frame (.error .endOfStream)

/-- The three effects of an operation, told by its outcome. -/
inductive Moves (d : Decoder) (goal : Stage) : Outcome × Decoder → Prop
  | succeeds {outcome : Outcome} {next : Decoder} (error : outcome.error? = none)
      (coherent : next.IsCoherent) (forward : d.stage.rank ≤ next.stage.rank)
      (reached : goal.rank ≤ next.stage.rank) : Moves d goal (outcome, next)
  | fails {outcome : Outcome} {next : Decoder} {e : PngError} (error : outcome.error? = some e)
      (defect : e.IsDefect) (stage : next.stage = .failed) (kept : next.error = some e) :
      Moves d goal (outcome, next)
  | ends {outcome : Outcome} {next : Decoder} (error : outcome.error? = some .endOfStream)
      (atEnd : next.IsAtEnd) (forward : d.stage.rank ≤ next.stage.rank) :
      Moves d goal (outcome, next)

theorem Leads.moves {α : Type} {goal : Stage} {r : Except PngError α × Decoder}
    {show? : Except PngError α → Outcome} (h : Leads d goal r)
    (hok : ∀ a, (show? (.ok a)).error? = none)
    (herror : ∀ e, (show? (.error e)).error? = some e) : Moves d goal (show? r.1, r.2) := by
  cases h with
  | succeeds coherent unfailed forward reached => exact .succeeds (hok _) coherent forward reached
  | fails defect stage error => exact .fails (herror _) defect stage error
  | ends atEnd forward => exact .ends (herror _) atEnd forward

theorem perform_moves (i : Deflate.Inflater) (hd : d.IsCoherent) (op : Operation) :
    Moves d op.goal (BySlices.perform i d op) := by
  cases op with
  | header => exact (readHeader_leads hd).moves (fun _ => rfl) (fun _ => rfl)
  | metadata => exact (readMetadata_leads hd).moves (fun _ => rfl) (fun _ => rfl)
  | frame => exact (nextFrame_leads i hd).moves (fun _ => rfl) (fun _ => rfl)

theorem Moves.isCoherent {goal : Stage} {r : Outcome × Decoder} (h : Moves d goal r) :
    r.2.IsCoherent := by
  cases h with
  | succeeds error coherent forward reached => exact coherent
  | fails error defect stage kept => exact isCoherent_of_failed defect stage kept
  | ends error atEnd forward => exact atEnd.toIsCoherent

theorem Moves.forward {goal : Stage} {r : Outcome × Decoder} (h : Moves d goal r) :
    d.stage.rank ≤ r.2.stage.rank := by
  cases h with
  | succeeds error coherent forward reached => exact forward
  | fails error defect stage kept =>
    show d.stage.rank ≤ _
    rw [stage]
    cases d.stage <;> decide
  | ends error atEnd forward => exact forward

theorem isCoherent_performAll (i : Deflate.Inflater) (hd : d.IsCoherent) (ops : List Operation) :
    (BySlices.performAll i d ops).2.IsCoherent := by
  induction ops generalizing d with
  | nil => exact hd
  | cons op ops ih => exact ih (perform_moves i hd op).isCoherent

theorem performAll_eq_map {outcome : Operation → Outcome}
    (h : ∀ op, BySlices.perform i d op = (outcome op, d)) (ops : List Operation) :
    BySlices.performAll i d ops = (ops.map outcome, d) := by
  induction ops with
  | nil => rfl
  | cons op ops ih =>
    simp only [BySlices.performAll, h op, ih]
    rfl

theorem perform_of_failed {e : PngError} (hstage : d.stage = .failed) (herror : d.error = some e)
    (op : Operation) : BySlices.perform i d op = (op.failure e, d) := by
  have hretained : d.retainedError = e := by
    rw [retainedError, herror]
    rfl
  cases op with
  | header =>
    simp only [BySlices.perform, readHeader_of_failed hstage, hretained, Operation.failure]
  | metadata =>
    simp only [BySlices.perform, readMetadata_of_failed hstage, hretained, Operation.failure]
  | frame => simp only [BySlices.perform, BySlices.nextFrame, hstage, hretained, Operation.failure]

theorem perform_of_isAtEnd {h : Header} (hd : d.IsAtEnd) (hheader : d.header = some h)
    (op : Operation) : BySlices.perform i d op = (op.atEnd h, d) := by
  have hnext : BySlices.nextFrame i d = (.error .endOfStream, d) := by
    rw [nextFrame_eq_decodeNext hd.loaded hheader, BySlices.decodeNext, if_pos hd.frames_le]
  cases op with
  | header =>
    simp only [BySlices.perform, readHeader_of_some (unfailed_of_loaded hd.loaded).1 hheader,
      Operation.atEnd]
  | metadata => simp only [BySlices.perform, readMetadata_of_loaded hd.loaded, Operation.atEnd]
  | frame => simp only [BySlices.perform, hnext, Operation.atEnd]

/-- A frame comes after the metadata, whether or not that is asked for first. -/
theorem performAll_of_nextFrame {frame : Frame} {next : Decoder} (hd : d.IsCoherent)
    (hn : BySlices.nextFrame i d = (.ok frame, next)) :
    BySlices.performAll i d [.metadata, .frame]
      = ([.metadata (.ok ()), .frame (.ok frame)], next) := by
  have hstage : d.stage ≠ .failed := by
    intro hs
    simp only [BySlices.nextFrame, hs] at hn
    cases hn
  cases hr : d.readMetadata with
  | mk result loaded =>
    cases result with
    | error e =>
      rw [nextFrame_of_error hstage hr] at hn
      cases hn
    | ok _ =>
      obtain ⟨-, hloaded, ⟨h, hheader⟩, -⟩ := loaded_of_readMetadata hd hr
      rw [nextFrame_of_ok hstage hr hheader, ← nextFrame_eq_decodeNext hloaded hheader] at hn
      simp only [BySlices.performAll, BySlices.perform, hr, hn]

/-- After any operations on any bytes, whatever the inflater makes of image data: an operation moves
the decoder on, or leaves it where it is, and the cause of a failure is there exactly if it has
failed. After an error of any kind nothing changes any more. If it is the end of the frames, the
header and the metadata can still be had; any other error is given again by every operation. The
header is there whenever a frame is decoded. -/
theorem forward_and_final (i : Deflate.Inflater) (bytes : Bytes) (ops : List Operation)
    (op : Operation) (later : List Operation) :
    let d := (BySlices.performAll i (ofBytes bytes) ops).2
    let call := BySlices.perform i d op
    (d.error.isSome = true ↔ d.stage = .failed)
      ∧ d.stage.rank ≤ call.2.stage.rank
      ∧ (call.1.error? = none → op.goal.rank ≤ call.2.stage.rank)
      ∧ (∀ e, call.1.error? = some e → e ≠ .endOfStream →
        call.2.stage = .failed ∧ call.2.error = some e
          ∧ BySlices.performAll i call.2 later = (later.map (Operation.failure e), call.2))
      ∧ (call.1.error? = some .endOfStream →
        call.2.stage ≠ .failed
          ∧ ∃ h, BySlices.performAll i call.2 later = (later.map (Operation.atEnd h), call.2))
      ∧ call.1.error? ≠ some .badParameter
      ∧ ∀ loaded, d.readMetadata = (.ok (), loaded) → ∃ h, loaded.header = some h := by
  intro d call
  have hd : d.IsCoherent := isCoherent_performAll i (isCoherent_ofBytes bytes) ops
  have hmoves : Moves d op.goal call := perform_moves i hd op
  have hheader : ∀ loaded, d.readMetadata = (.ok (), loaded) → ∃ h, loaded.header = some h :=
    fun loaded hr => (loaded_of_readMetadata hd hr).2.2.1
  have hforward := hmoves.forward
  clear_value call
  refine ⟨hd.isSome_error, hforward, ?_⟩
  cases hmoves with
  | succeeds error coherent forward reached =>
    simp only [error]
    exact ⟨fun _ => reached, fun _ h => (nomatch h), fun h => (nomatch h), fun h => (nomatch h),
      hheader⟩
  | @fails outcome next e error defect stage kept =>
    simp only [error]
    refine ⟨fun h => (nomatch h), ?_, ?_, ?_, hheader⟩
    · rintro _ ⟨⟩ -
      exact ⟨stage, kept, performAll_eq_map (perform_of_failed stage kept) later⟩
    · rintro ⟨⟩
      exact absurd rfl defect.1
    · rintro ⟨⟩
      exact absurd rfl defect.2
  | @ends outcome next error atEnd forward =>
    obtain ⟨hunfailed, hfresh⟩ := unfailed_of_loaded atEnd.loaded
    obtain ⟨h, hsome⟩ := atEnd.exists_header hunfailed hfresh
    simp only [error]
    refine ⟨fun h => (nomatch h), ?_, ?_, fun h => (nomatch h), hheader⟩
    · rintro _ ⟨⟩ hne
      exact absurd rfl hne
    · intro _
      exact ⟨hunfailed, h, performAll_eq_map (perform_of_isAtEnd atEnd hsome) later⟩

/-- A header that is followed by a chunk that nobody may skip. -/
def unknownChunkFile : Bytes :=
  Chunk.encodeFile [⟨Tag.ihdr, Header.toData ⟨1, 1, 8, .gray⟩, 0⟩,
    ⟨Tag.ofChars 'A' 'B' 'C' 'D', [7], 0⟩]

theorem forward_and_final_unknownChunkFile :
    let d := (BySlices.performAll Deflate.Inflater.rereading (ofBytes unknownChunkFile) [.header]).2
    let call := BySlices.perform Deflate.Inflater.rereading d .metadata
    call.1.error? = some .unsupportedChunk
      ∧ BySlices.performAll Deflate.Inflater.rereading call.2 [.frame, .header]
        = ([.frame (.error .unsupportedChunk), .header (.error .unsupportedChunk)], call.2) := by
  intro d call
  have hcall : call.1.error? = some .unsupportedChunk := by
    simp only [call, d]
    rw [unknownChunkFile, ofBytes_encodeFile (by decide)]
    rfl
  obtain ⟨-, -, -, hfinal, -⟩ := forward_and_final Deflate.Inflater.rereading unknownChunkFile
    [.header] .metadata [.frame, .header]
  exact ⟨hcall, (hfinal _ hcall (by decide)).2.2⟩

end Decoder

end Png

end DialGraphics
