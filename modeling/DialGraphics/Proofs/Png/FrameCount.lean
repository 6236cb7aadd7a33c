import DialGraphics.Proofs.Png.FrameBounds

/-!
# The number of frames

An animation may promise any number of frames. What bounds the work is not that number but the
chunks that are left: every frame takes at least one of them, and nothing ever puts one back in
front of where the last frame ended.
-/

namespace DialGraphics.Png

/-! ### Chunks that are left -/

theorem Chunk.length_split_le (bytes : Bytes) : 12 * (split bytes).1.length ≤ bytes.length := by
  fun_induction split bytes with
  | case1 bytes hpull => exact Nat.zero_le _
  | case2 bytes c rest hpull chunks tail hsplit ih =>
    rw [hsplit] at ih
    have hlength := length_of_pull? hpull
    simp only [List.length_cons] at ih ⊢
    omega

theorem Metadata.length_le_of_scan {h : Header} {m m' : Metadata} {chunks rest : List Chunk}
    (hs : scan h m chunks = (m', .ok rest)) : rest.length ≤ chunks.length := by
  induction chunks generalizing m with
  | nil =>
    rw [scan] at hs
    cases hs
  | cons c chunks ih =>
    rw [scan] at hs
    split at hs
    · cases hs
      exact Nat.le_refl _
    · split at hs
      · cases hs
      · exact Nat.le_succ_of_le (ih hs)

/-- A run of data is at least the chunk it starts with. -/
theorem length_lt_of_payloadRun? {chunks rest : List Chunk} {payloads : List Bytes}
    (hrun : payloadRun? chunks = some (payloads, rest)) : rest.length < chunks.length := by
  cases chunks with
  | nil => cases hrun
  | cons first others =>
    simp only [payloadRun?, Option.map_eq_some_iff, Prod.mk.injEq] at hrun
    obtain ⟨_, -, -, rfl⟩ := hrun
    rw [List.dropWhile_cons_of_pos (by simp)]
    exact Nat.lt_succ_of_le (List.dropWhile_suffix _).length_le

namespace Decoder

/-- The chunks that are left where the search for data has stopped. -/
def Seek.rest? : Seek → Option (List Chunk)
  | .data _ chunks | .ended _ chunks => some chunks
  | .failed _ => none

theorem length_le_of_seek {h : Header} {first animated : Bool} {control : Option FrameControl}
    {chunks : List Chunk} :
    ∀ rest ∈ (seek h first animated control chunks).rest?, rest.length ≤ chunks.length := by
  induction chunks generalizing control with
  | nil => exact fun _ hrest => nomatch hrest
  | cons c chunks ih =>
    have hlater : ∀ next, ∀ rest ∈ (seek h first animated next chunks).rest?,
        rest.length ≤ (c :: chunks).length :=
      fun next rest hrest => Nat.le_succ_of_le (ih rest hrest)
    intro rest hrest
    rw [seek] at hrest
    split at hrest
    · cases hrest
      exact Nat.le_refl _
    · split at hrest
      · cases hrest
        exact Nat.le_refl _
      · split at hrest
        · split at hrest
          · cases hrest
          · exact hlater _ rest hrest
        · split at hrest
          · cases hrest
            exact Nat.le_succ _
          · split at hrest
            · cases hrest
            · split at hrest
              · exact hlater _ rest hrest
              · cases hrest

variable {d : Decoder}

/-! ### One call -/

theorem length_readHeader_le (d : Decoder) : d.readHeader.2.chunks.length ≤ d.chunks.length := by
  unfold readHeader
  split
  · exact Nat.le_refl _
  · exact Nat.le_refl _
  · split
    · exact Nat.le_refl _
    · split
      · exact Nat.le_refl _
      · rename_i c rest hchunks
        have hrest : rest.length ≤ d.chunks.length := by
          rw [hchunks]
          exact Nat.le_succ _
        split
        · exact hrest
        · exact hrest

theorem length_scanMetadata_le (d : Decoder) (h : Header) :
    (d.scanMetadata h).2.chunks.length ≤ d.chunks.length := by
  unfold scanMetadata
  split
  · exact Nat.le_refl _
  · rename_i m rest hscan
    have hrest := Metadata.length_le_of_scan hscan
    simp only
    split
    · exact hrest
    · exact hrest

theorem length_readMetadata_le (d : Decoder) :
    d.readMetadata.2.chunks.length ≤ d.chunks.length := by
  have hscan : d.stage = .fresh ∨ d.stage = .header →
      d.readMetadata.2.chunks.length ≤ d.chunks.length := by
    intro hstage
    have hheader := length_readHeader_le d
    cases hr : d.readHeader with
    | mk result next =>
      rw [hr] at hheader
      cases result with
      | error e =>
        rw [readMetadata_of_error hstage hr]
        exact hheader
      | ok h =>
        rw [readMetadata_of_ok hstage hr]
        exact Nat.le_trans (length_scanMetadata_le next h) hheader
  cases hs : d.stage with
  | failed => exact Nat.le_of_eq (by rw [readMetadata_of_failed hs])
  | loaded => exact Nat.le_of_eq (by rw [readMetadata_of_loaded (.inl hs)])
  | decoded => exact Nat.le_of_eq (by rw [readMetadata_of_loaded (.inr hs)])
  | fresh => exact hscan (.inl hs)
  | header => exact hscan (.inr hs)

theorem failed_of_readHeader {e : PngError} {next : Decoder}
    (hr : d.readHeader = (.error e, next)) : next.stage = .failed := by
  unfold readHeader at hr
  split at hr
  · rename_i hstage
    cases hr
    exact hstage
  · cases hr
  · split at hr
    · cases hr
      rfl
    · split at hr
      · cases hr
        rfl
      · split at hr
        · cases hr
          rfl
        · cases hr

theorem failed_of_scanMetadata {h : Header} {e : PngError} {next : Decoder}
    (hr : d.scanMetadata h = (.error e, next)) : next.stage = .failed := by
  unfold scanMetadata at hr
  split at hr
  · cases hr
    rfl
  · simp only at hr
    split at hr
    · cases hr
    · cases hr
      rfl

/-- What a call for a frame does to the chunks and to the two counts, by the way it ends. -/
inductive Counts (d : Decoder) : Except PngError Frame × Decoder → Prop
  | gives {frame : Frame} {next : Decoder} (shorter : next.chunks.length < d.chunks.length)
      (room : d.framesDecoded < d.totalFrames) (decoded : next.framesDecoded = d.framesDecoded + 1)
      (total : next.totalFrames = d.totalFrames) (stage : next.stage = .decoded) :
      Counts d (.ok frame, next)
  | ends {next : Decoder} (notLonger : next.chunks.length ≤ d.chunks.length)
      (decoded : next.framesDecoded = d.framesDecoded)
      (total : next.totalFrames = d.totalFrames ∨ next.totalFrames = d.framesDecoded)
      (stage : next.stage = d.stage) : Counts d (.error .endOfStream, next)
  | fails {e : PngError} {next : Decoder} (notLonger : next.chunks.length ≤ d.chunks.length)
      (stage : next.stage = .failed) : Counts d (.error e, next)

theorem counts_decodeNext (i : Deflate.Inflater) (d : Decoder) (h : Header) :
    Counts d (BySlices.decodeNext i d h) := by
  have hseek := @length_le_of_seek h (d.framesDecoded == 0) d.metadata.animation.isSome
    d.metadata.control d.chunks
  unfold BySlices.decodeNext
  split
  · exact .ends (Nat.le_refl _) rfl (.inl rfl) rfl
  · rename_i hframes
    split
    · exact .fails (Nat.le_refl _) rfl
    · rename_i control rest hs
      rw [hs] at hseek
      exact .ends (hseek rest rfl) rfl (.inr rfl) rfl
    · rename_i control chunks hs
      rw [hs] at hseek
      have hchunks := hseek chunks rfl
      rw [decodeRun_eq]
      split
      · exact .fails (Nat.le_refl _) rfl
      · rename_i payloads rest hrun
        have hshorter := Nat.lt_of_lt_of_le (length_lt_of_payloadRun? hrun) hchunks
        split
        · exact .fails (Nat.le_of_lt hshorter) rfl
        · exact .gives hshorter (Nat.lt_of_not_le hframes) rfl rfl rfl

theorem failed_of_readMetadata {e : PngError} {next : Decoder}
    (hr : d.readMetadata = (.error e, next)) : next.stage = .failed := by
  have hscan : d.stage = .fresh ∨ d.stage = .header → next.stage = .failed := by
    intro hstage
    cases hheader : d.readHeader with
    | mk result opened =>
      cases result with
      | error cause =>
        rw [readMetadata_of_error hstage hheader] at hr
        cases hr
        exact failed_of_readHeader hheader
      | ok h =>
        rw [readMetadata_of_ok hstage hheader] at hr
        exact failed_of_scanMetadata hr
  cases hs : d.stage with
  | failed =>
    rw [readMetadata_of_failed hs] at hr
    cases hr
    exact hs
  | loaded =>
    rw [readMetadata_of_loaded (.inl hs)] at hr
    cases hr
  | decoded =>
    rw [readMetadata_of_loaded (.inr hs)] at hr
    cases hr
  | fresh => exact hscan (.inl hs)
  | header => exact hscan (.inr hs)

/-- A call for a frame fails for good, or it is about what comes next after the metadata. -/
theorem nextFrame_cases (i : Deflate.Inflater) (hd : d.IsCoherent) :
    (∃ e next, BySlices.nextFrame i d = (.error e, next) ∧ next.chunks.length ≤ d.chunks.length
        ∧ next.stage = .failed)
      ∨ ∃ h, (d.readMetadata.2.stage = .loaded ∨ d.readMetadata.2.stage = .decoded)
        ∧ BySlices.nextFrame i d = BySlices.decodeNext i d.readMetadata.2 h := by
  by_cases hstage : d.stage = .failed
  · have hn : BySlices.nextFrame i d = (.error d.retainedError, d) := by
      simp only [BySlices.nextFrame, hstage]
    exact .inl ⟨_, d, hn, Nat.le_refl _, hstage⟩
  · have hlength := length_readMetadata_le d
    cases hr : d.readMetadata with
    | mk result opened =>
      rw [hr] at hlength
      cases result with
      | error e =>
        exact .inl ⟨e, opened, nextFrame_of_error hstage hr, hlength, failed_of_readMetadata hr⟩
      | ok _ =>
        obtain ⟨-, hloaded, ⟨h, hheader⟩, -⟩ := loaded_of_readMetadata hd hr
        exact .inr ⟨h, hloaded, nextFrame_of_ok hstage hr hheader⟩

theorem length_nextFrame_le (i : Deflate.Inflater) (hd : d.IsCoherent) :
    (framesOf [(BySlices.nextFrame i d).1]).length + (BySlices.nextFrame i d).2.chunks.length
      ≤ d.chunks.length := by
  have hopened := length_readMetadata_le d
  rcases nextFrame_cases i hd with ⟨e, next, hn, hlength, -⟩ | ⟨h, -, hn⟩
  · rw [hn]
    show 0 + next.chunks.length ≤ d.chunks.length
    rwa [Nat.zero_add]
  · rw [hn]
    have hcounts := counts_decodeNext i d.readMetadata.2 h
    cases hr : BySlices.decodeNext i d.readMetadata.2 h with
    | mk result next =>
      rw [hr] at hcounts
      cases hcounts with
      | gives shorter room decoded total stage =>
        show 1 + next.chunks.length ≤ d.chunks.length
        omega
      | ends notLonger decoded total stage =>
        show 0 + next.chunks.length ≤ d.chunks.length
        omega
      | fails notLonger stage =>
        show 0 + next.chunks.length ≤ d.chunks.length
        omega

/-! ### The two counts -/

/-- Nothing is decoded before the metadata is read, and never more than there is. -/
structure IsCounted (d : Decoder) : Prop where
  decoded_eq_zero : d.stage = .fresh ∨ d.stage = .header → d.framesDecoded = 0
  decoded_le : d.stage = .loaded ∨ d.stage = .decoded → d.framesDecoded ≤ d.totalFrames

theorem isCounted_ofBytes (bytes : Bytes) : (ofBytes bytes).IsCounted := by
  unfold ofBytes
  split <;> exact ⟨fun _ => rfl, fun _ => Nat.zero_le _⟩

theorem isCounted_of_failed (hstage : d.stage = .failed) : d.IsCounted where
  decoded_eq_zero := by
    rw [hstage]
    rintro (h | h) <;> cases h
  decoded_le := by
    rw [hstage]
    rintro (h | h) <;> cases h

theorem isCounted_of_loaded (hloaded : d.stage = .loaded ∨ d.stage = .decoded)
    (hframes : d.framesDecoded ≤ d.totalFrames) : d.IsCounted where
  decoded_eq_zero := by
    rcases hloaded with hs | hs <;>
      · rw [hs]
        rintro (h | h) <;> cases h
  decoded_le := fun _ => hframes

theorem isCounted_readHeader (hd : d.IsCoherent) (hc : d.IsCounted) : d.readHeader.2.IsCounted := by
  unfold readHeader
  split
  · exact hc
  · exact hc
  · rename_i hheader hstage
    have hzero := hc.decoded_eq_zero (.inl (hd.fresh_of_header hstage hheader))
    split
    · exact isCounted_of_failed rfl
    · split
      · exact isCounted_of_failed rfl
      · split
        · exact isCounted_of_failed rfl
        · refine ⟨fun _ => hzero, ?_⟩
          rintro (h | h) <;> cases h

theorem isCounted_scanMetadata (hzero : d.framesDecoded = 0) (h : Header) :
    (d.scanMetadata h).2.IsCounted := by
  unfold scanMetadata
  split
  · exact isCounted_of_failed rfl
  · simp only
    split
    · refine isCounted_of_loaded (.inl rfl) ?_
      show d.framesDecoded ≤ _
      rw [hzero]
      exact Nat.zero_le _
    · exact isCounted_of_failed rfl

theorem isCounted_readMetadata (hd : d.IsCoherent) (hc : d.IsCounted) :
    d.readMetadata.2.IsCounted := by
  have hscan : d.stage = .fresh ∨ d.stage = .header → d.readMetadata.2.IsCounted := by
    intro hstage
    have hopened := isCounted_readHeader hd hc
    cases hr : d.readHeader with
    | mk result next =>
      rw [hr] at hopened
      cases result with
      | error e =>
        rw [readMetadata_of_error hstage hr]
        exact hopened
      | ok h =>
        rw [readMetadata_of_ok hstage hr]
        obtain ⟨-, hrank⟩ := readHeader_eq_ok hstage hr
        refine isCounted_scanMetadata (hopened.decoded_eq_zero ?_) h
        cases hs : next.stage with
        | fresh => exact .inl rfl
        | header => exact .inr rfl
        | _ =>
          rw [hs] at hrank
          exact absurd hrank (by decide)
  cases hs : d.stage with
  | failed => rwa [readMetadata_of_failed hs]
  | loaded => rwa [readMetadata_of_loaded (.inl hs)]
  | decoded => rwa [readMetadata_of_loaded (.inr hs)]
  | fresh => exact hscan (.inl hs)
  | header => exact hscan (.inr hs)

theorem isCounted_nextFrame (i : Deflate.Inflater) (hd : d.IsCoherent) (hc : d.IsCounted) :
    (BySlices.nextFrame i d).2.IsCounted := by
  rcases nextFrame_cases i hd with ⟨e, next, hn, -, hfailed⟩ | ⟨h, hloaded, hn⟩
  · rw [hn]
    exact isCounted_of_failed hfailed
  · rw [hn]
    have hle := (isCounted_readMetadata hd hc).decoded_le hloaded
    have hcounts := counts_decodeNext i d.readMetadata.2 h
    cases hr : BySlices.decodeNext i d.readMetadata.2 h with
    | mk result next =>
      rw [hr] at hcounts
      cases hcounts with
      | gives shorter room decoded total stage =>
        refine isCounted_of_loaded (.inr stage) ?_
        rw [decoded, total]
        exact room
      | ends notLonger decoded total stage =>
        rw [← stage] at hloaded
        refine isCounted_of_loaded hloaded ?_
        rcases total with total | total
        · rwa [decoded, total]
        · exact Nat.le_of_eq (decoded.trans total.symm)
      | fails notLonger stage => exact isCounted_of_failed stage

theorem isCounted_answerAll (i : Deflate.Inflater) (hd : d.IsCoherent) (hc : d.IsCounted)
    (calls : List Call) : (BySlices.answerAll i d calls).2.IsCounted := by
  induction calls generalizing d with
  | nil => exact hc
  | cons call calls ih =>
    refine ih (isCoherent_answer i hd call) ?_
    cases call with
    | framesRemaining => exact hc
    | operation op =>
      cases op with
      | header => exact isCounted_readHeader hd hc
      | metadata => exact isCounted_readMetadata hd hc
      | frame => exact isCounted_nextFrame i hd hc

theorem framesRemaining_of_loaded (hloaded : d.stage = .loaded ∨ d.stage = .decoded) :
    d.framesRemaining = some (d.totalFrames - d.framesDecoded) := by
  rcases hloaded with hs | hs <;> simp only [framesRemaining, hs]

/-- A frame is one of those that remain once the metadata is read. -/
theorem framesRemaining_of_nextFrame {i : Deflate.Inflater} (hd : d.IsCoherent) {frame : Frame}
    {next : Decoder} (hn : BySlices.nextFrame i d = (.ok frame, next)) :
    ∃ r, d.readMetadata.2.framesRemaining = some (r + 1) ∧ next.framesRemaining = some r := by
  rcases nextFrame_cases i hd with ⟨e, _, herror, -⟩ | ⟨h, hloaded, hsame⟩
  · rw [hn] at herror
    cases herror
  · have hcounts := counts_decodeNext i d.readMetadata.2 h
    rw [← hsame, hn] at hcounts
    cases hcounts with
    | gives shorter room decoded total stage =>
      refine ⟨next.totalFrames - next.framesDecoded, ?_, framesRemaining_of_loaded (.inr stage)⟩
      rw [framesRemaining_of_loaded hloaded, decoded, total]
      congr 1
      omega

theorem framesRemaining_readMetadata {k : Nat} (hk : d.framesRemaining = some k) :
    d.readMetadata.2.framesRemaining = some k := by
  cases hs : d.stage with
  | loaded => rwa [readMetadata_of_loaded (.inl hs)]
  | decoded => rwa [readMetadata_of_loaded (.inr hs)]
  | _ =>
    simp only [framesRemaining, hs] at hk
    cases hk

/-- Whatever is asked for after the end of the frames: none remain. -/
theorem framesRemaining_answerAll_of_isAtEnd (i : Deflate.Inflater) (hd : d.IsAtEnd)
    (calls : List Call) : (BySlices.answerAll i d calls).2.framesRemaining = some 0 := by
  obtain ⟨hunfailed, hfresh⟩ := unfailed_of_loaded hd.loaded
  obtain ⟨h, hheader⟩ := hd.exists_header hunfailed hfresh
  have hsame : ∀ call, (BySlices.answer i d call).2 = d := by
    intro call
    cases call with
    | framesRemaining => rfl
    | operation op => exact congrArg Prod.snd (perform_of_isAtEnd hd hheader op)
  have hall : (BySlices.answerAll i d calls).2 = d := by
    induction calls with
    | nil => rfl
    | cons call calls ih =>
      show (BySlices.answerAll i (BySlices.answer i d call).2 calls).2 = d
      rw [hsame, ih]
  rw [hall, framesRemaining_of_loaded hd.loaded, Nat.sub_eq_zero_of_le hd.frames_le]

/-! ### Runs -/

/-- What the chunks are spent on: every frame of a run costs at least one. -/
theorem length_answerAll_le (i : Deflate.Inflater) (hd : d.IsCoherent) (calls : List Call) :
    (framesOf (frameResults (BySlices.answerAll i d calls).1)).length
        + (BySlices.answerAll i d calls).2.chunks.length
      ≤ d.chunks.length := by
  induction calls using List.reverseRecOn with
  | nil => exact Nat.le_of_eq (Nat.zero_add _)
  | append_singleton calls call ih =>
    have hcoherent := isCoherent_answerAll i hd calls
    rw [answerAll_concat, frameResults_concat, framesOf, List.filterMap_append, List.length_append]
    generalize BySlices.answerAll i d calls = run at ih hcoherent ⊢
    have hstep : ((BySlices.answer i run.2 call).1.frame?.toList.filterMap
          Except.toOption).length + (BySlices.answer i run.2 call).2.chunks.length
        ≤ run.2.chunks.length := by
      cases call with
      | framesRemaining => exact Nat.le_of_eq (Nat.zero_add _)
      | operation op =>
        cases op with
        | header =>
          exact Nat.le_trans (Nat.le_of_eq (Nat.zero_add _)) (length_readHeader_le _)
        | metadata =>
          exact Nat.le_trans (Nat.le_of_eq (Nat.zero_add _)) (length_readMetadata_le _)
        | frame => exact length_nextFrame_le i hcoherent
    unfold framesOf at ih
    simp only
    omega

theorem decodeFrames_succ (i : Deflate.Inflater) (d : Decoder) (n : Nat) :
    BySlices.decodeFrames i d (n + 1)
      = ((BySlices.nextFrame i d).1 :: (BySlices.decodeFrames i (BySlices.nextFrame i d).2 n).1,
        (BySlices.decodeFrames i (BySlices.nextFrame i d).2 n).2) := by
  induction n with
  | zero => rfl
  | succ n ih =>
    rw [BySlices.decodeFrames, ih]
    rfl

/-- Asking for frame after frame comes to an error, with no more frames before it than there are
chunks. -/
theorem decodeFrames_ends (i : Deflate.Inflater) (hd : d.IsCoherent) :
    ∃ (frames : List Frame) (e : PngError), frames.length ≤ d.chunks.length
      ∧ (BySlices.decodeFrames i d (frames.length + 1)).1 = frames.map .ok ++ [.error e] := by
  induction hn : d.chunks.length using Nat.strongRecOn generalizing d with
  | ind n ih =>
    have hlength := length_nextFrame_le i hd
    have hcoherent := isCoherent_answer i hd frameCall
    cases hr : BySlices.nextFrame i d with
    | mk result next =>
      rw [hr] at hlength
      cases result with
      | error e =>
        refine ⟨[], e, Nat.zero_le _, ?_⟩
        rw [decodeFrames_succ, hr]
        rfl
      | ok frame =>
        have hnext : (BySlices.answer i d frameCall).2 = next := congrArg Prod.snd hr
        have hshorter : 1 + next.chunks.length ≤ d.chunks.length := hlength
        rw [hnext] at hcoherent
        obtain ⟨frames, e, hframes, hall⟩ := ih next.chunks.length (by omega) hcoherent rfl
        refine ⟨frame :: frames, e, ?_, ?_⟩
        · rw [List.length_cons]
          omega
        · rw [List.length_cons, decodeFrames_succ, hr, hall]
          rfl

theorem length_chunks_ofBytes_le (bytes : Bytes) :
    (ofBytes bytes).chunks.length ≤ bytes.length / 12 := by
  unfold ofBytes
  split
  · have hsplit := Chunk.length_split_le (bytes.drop 8)
    rw [List.length_drop] at hsplit
    simp only
    omega
  · exact Nat.zero_le _

/-- After any calls on any bytes, whatever number of frames they promise: no more frames are decoded
than there are. The next frame is one of those that remain. At the end of the frames none remain,
whatever is asked for later. Asking for frame after frame comes to an error, and no more than a
twelfth as many frames as bytes are given on the whole. The inflater may be any. -/
theorem frames_counted_and_bounded (i : Deflate.Inflater) (bytes : Bytes) (calls : List Call) :
    let run := BySlices.answerAll i (ofBytes bytes) calls
    let d := run.2
    (d.stage = .loaded ∨ d.stage = .decoded → d.framesDecoded ≤ d.totalFrames)
      ∧ (∀ frame next, BySlices.nextFrame i d = (.ok frame, next) →
        ∃ r, d.readMetadata.2.framesRemaining = some (r + 1) ∧ next.framesRemaining = some r
          ∧ ∀ k ∈ d.framesRemaining, k = r + 1)
      ∧ (∀ next, BySlices.nextFrame i d = (.error .endOfStream, next) →
        ∀ later, (BySlices.answerAll i next later).2.framesRemaining = some 0)
      ∧ ∃ (frames : List Frame) (e : PngError),
        (framesOf (frameResults run.1)).length + frames.length ≤ bytes.length / 12
          ∧ (BySlices.decodeFrames i d (frames.length + 1)).1 = frames.map .ok ++ [.error e] := by
  intro run d
  have hd : d.IsCoherent := isCoherent_answerAll i (isCoherent_ofBytes bytes) calls
  have hc : d.IsCounted :=
    isCounted_answerAll i (isCoherent_ofBytes bytes) (isCounted_ofBytes bytes) calls
  have hspent : (framesOf (frameResults run.1)).length + d.chunks.length
      ≤ (ofBytes bytes).chunks.length := length_answerAll_le i (isCoherent_ofBytes bytes) calls
  have hchunks := length_chunks_ofBytes_le bytes
  refine ⟨hc.decoded_le, ?_, ?_, ?_⟩
  · intro frame next hn
    obtain ⟨r, hbefore, hafter⟩ := framesRemaining_of_nextFrame hd hn
    refine ⟨r, hbefore, hafter, ?_⟩
    intro k hk
    rw [framesRemaining_readMetadata hk] at hbefore
    exact Option.some.inj hbefore
  · intro next hn later
    have hleads := nextFrame_leads i hd
    rw [hn] at hleads
    cases hleads with
    | fails defect stage error => exact absurd rfl defect.1
    | ends atEnd forward => exact framesRemaining_answerAll_of_isAtEnd i atEnd later
  · obtain ⟨frames, e, hlength, hall⟩ := decodeFrames_ends i hd
    exact ⟨frames, e, by omega, hall⟩

theorem frames_counted_and_bounded_smallAnimation :
    let d := (BySlices.answerAll Deflate.Inflater.rereading
      (ofBytes AnimatedFile.smallAnimation.toBytes) [frameCall]).2
    d.framesRemaining = some 1
      ∧ ∃ next, BySlices.nextFrame Deflate.Inflater.rereading d
          = (.ok AnimatedFile.secondFrame.frame, next)
        ∧ next.framesRemaining = some 0 := by
  have hi := Deflate.Inflater.readsOneStream_rereading
  have hfirst : (BySlices.answerAll Deflate.Inflater.rereading
        (ofBytes AnimatedFile.smallAnimation.toBytes) [frameCall]).2
      = AnimatedFile.smallAnimation.decoded [AnimatedFile.secondFrame] :=
    congrArg Prod.snd (AnimatedFile.smallAnimation.nextFrame_toBytes hi)
  have hsecond := AnimatedFile.nextFrame_smallAnimation hi
  have hremaining : (AnimatedFile.smallAnimation.decoded
      [AnimatedFile.secondFrame]).framesRemaining = some 1 := rfl
  obtain ⟨-, hcounted, -⟩ := frames_counted_and_bounded Deflate.Inflater.rereading
    AnimatedFile.smallAnimation.toBytes [frameCall]
  rw [hfirst] at hcounted ⊢
  obtain ⟨r, -, hafter, hbefore⟩ := hcounted _ _ hsecond
  cases hbefore 1 hremaining
  exact ⟨hremaining, _, hsecond, hafter⟩

end Decoder

end DialGraphics.Png
