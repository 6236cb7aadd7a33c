import DialGraphics.Deflate.Slices
import DialGraphics.Proofs.Deflate.LongerInput

/-!
# The loop over the slices of a stream

If an inflater reads its slices as one stream, the loop over them gives what the joined stream
gives, wherever it is cut: within the header, within the checksum, or before slices that are empty.
-/

namespace DialGraphics.Deflate

/-! ### Whole streams -/

namespace Zlib

/-- The output of the blocks behind a header, with the bits behind them. -/
def body? (size : Nat) : Bytes → Option (Output × Bits)
  | method :: flags :: rest =>
    if isHeader method flags then blocks? size #[] (Bits.ofBytes rest) else none
  | _ => none

def checksumSize : Nat := 4

/-- The contents of the stream in front, if all of it is there and gives at most `size` bytes. -/
def contents? (size : Nat) (stream : Bytes) : Option Bytes :=
  match body? size stream with
  | none => none
  | some (out, bits) => if checksumSize ≤ bits.align.length then some out.toList else none

variable {size : Nat} {stream : Bytes}

theorem inflate?_eq_filter (size : Nat) (stream : Bytes) :
    inflate? size stream = (contents? size stream).filter (·.length = size) := by
  match stream with
  | [] => rfl
  | [_] => rfl
  | method :: flags :: rest =>
    simp only [inflate?, contents?, body?]
    by_cases hheader : isHeader method flags = true
    · rw [if_pos hheader, if_pos hheader]
      cases blocks? size #[] (Bits.ofBytes rest) with
      | none => rfl
      | some result =>
        obtain ⟨out, bits⟩ := result
        have hchecksum : 4 ≤ (bits.align.take 4).length ↔ checksumSize ≤ bits.align.length := by
          rw [List.length_take, checksumSize]
          omega
        simp only [hchecksum]
        by_cases hwhole : checksumSize ≤ bits.align.length
        · rw [if_pos hwhole]
          simp only [hwhole, true_and, Option.filter, Array.length_toList, decide_eq_true_eq]
        · rw [if_neg hwhole, if_neg fun h => hwhole h.1]
          rfl
    · rw [if_neg hheader, if_neg hheader]
      rfl

theorem body?_append {result : Output × Bits} (h : body? size stream = some result)
    (tail : Bytes) : body? size (stream ++ tail) = some (result.1, result.2.append tail) := by
  match stream with
  | method :: flags :: rest =>
    simp only [body?, List.cons_append] at h ⊢
    split at h
    · rw [if_pos ‹_›, Bits.ofBytes_append]
      exact blocks?_append h tail
    · cases h

theorem contents?_eq_some_iff {bytes : Bytes} :
    contents? size stream = some bytes ↔ ∃ result, body? size stream = some result
      ∧ checksumSize ≤ result.2.align.length ∧ result.1.toList = bytes := by
  unfold contents?
  cases body? size stream with
  | none => exact ⟨fun h => (nomatch h), fun ⟨_, h, _⟩ => (nomatch h)⟩
  | some result =>
    simp only [Option.some.injEq, exists_eq_left']
    by_cases hwhole : checksumSize ≤ result.2.align.length
    · rw [if_pos hwhole, Option.some.injEq]
      exact ⟨fun h => ⟨hwhole, h⟩, fun h => h.2⟩
    · rw [if_neg hwhole]
      exact ⟨fun h => (nomatch h), fun h => absurd h.1 hwhole⟩

/-- What follows a whole stream is ignored. -/
theorem contents?_append {bytes : Bytes} (h : contents? size stream = some bytes)
    (tail : Bytes) : contents? size (stream ++ tail) = some bytes := by
  obtain ⟨result, hbody, hwhole, hbytes⟩ := contents?_eq_some_iff.1 h
  have hne : result.2.align ≠ [] := by
    intro hnil
    rw [hnil] at hwhole
    exact absurd hwhole (by decide)
  refine contents?_eq_some_iff.2 ⟨_, body?_append hbody tail, ?_, hbytes⟩
  simp only [Bits.align_append hne tail, List.length_append]
  omega

end Zlib

/-! ### What is asked of an inflater -/

namespace Inflater

/-- Whether a report asks for the next slice. -/
def Wants {σ : Type} (report : Report σ) (size : Nat) (out slice : Bytes) : Prop :=
  report.status = .needsMoreInput
    ∨ report.status = .hasMoreOutput ∧ (out ++ report.written).length = size
      ∧ report.read = slice.length

/-- The states behind slices that together are `input`, with `out` written, each of which asked for
the next. -/
inductive After (i : Inflater) (size : Nat) : i.State → Bytes → Bytes → Prop
  | start : After i size i.start [] []
  | next {state : i.State} {input out slice : Bytes} (before : After i size state input out)
      (wants : Wants (i.feed state size out slice true) size out slice) :
      After i size (i.feed state size out slice true).state (input ++ slice)
        (out ++ (i.feed state size out slice true).written)

/-- An inflater reads slices as one stream: it is done exactly when the bytes so far hold a whole
stream, with the contents written, and it gives up only if no more bytes could complete one. -/
structure ReadsOneStream (i : Inflater) : Prop where
  done_iff : ∀ {size : Nat} {state : i.State} {input out : Bytes},
    i.After size state input out → ∀ (slice : Bytes) (more : Bool),
      (i.feed state size out slice more).status = .done
        ↔ (Zlib.contents? size (input ++ slice)).isSome = true
  written_of_done : ∀ {size : Nat} {state : i.State} {input out : Bytes},
    i.After size state input out → ∀ (slice : Bytes) (more : Bool),
      (i.feed state size out slice more).status = .done →
        Zlib.contents? size (input ++ slice)
          = some (out ++ (i.feed state size out slice more).written)
  gives_up : ∀ {size : Nat} {state : i.State} {input out : Bytes},
    i.After size state input out → ∀ slice : Bytes,
      (i.feed state size out slice true).status ≠ .done →
        ¬ Wants (i.feed state size out slice true) size out slice →
          ∀ rest, Zlib.contents? size (input ++ slice ++ rest) = none

variable {i : Inflater} {size : Nat} {state : i.State} {input out slice : Bytes}
  {slices : List Bytes}

theorem Wants.ne_done {σ : Type} {report : Report σ} (h : Wants report size out slice) :
    report.status ≠ .done := by
  rcases h with h | h
  · rw [h]
    decide
  · rw [h.1]
    decide

theorem ReadsOneStream.contents?_eq_none (hi : i.ReadsOneStream)
    (h : i.After size state input out) (more : Bool)
    (hunfinished : (i.feed state size out slice more).status ≠ .done) :
    Zlib.contents? size (input ++ slice) = none := by
  rw [← Option.not_isSome_iff_eq_none]
  exact fun hsome => hunfinished ((hi.done_iff h slice more).2 hsome)

theorem After.contents?_eq_none (hi : i.ReadsOneStream) (h : i.After size state input out) :
    Zlib.contents? size input = none := by
  cases h with
  | start => rfl
  | next before wants => exact hi.contents?_eq_none before true wants.ne_done

/-! ### The loop -/

/-- Whatever the inflater is, the loop gives as many bytes as were asked for. -/
theorem length_of_run? {lines : Bytes} (h : i.run? size state out slices = some lines) :
    lines.length = size := by
  induction slices generalizing state out with
  | nil => cases h
  | cons slice slices ih =>
    unfold run? at h
    simp only at h
    split at h
    · split at h
      · rename_i hfull
        cases h
        exact hfull
      · cases h
    · exact ih h
    · split at h
      · exact ih h
      · cases h
    · cases h

theorem length_of_inflate? {lines : Bytes} (h : i.inflate? size slices = some lines) :
    lines.length = size :=
  length_of_run? h

theorem run?_of_done (hdone : (i.feed state size out slice (!slices.isEmpty)).status = .done) :
    i.run? size state out (slice :: slices)
      = (some (out ++ (i.feed state size out slice (!slices.isEmpty)).written)).filter
          (·.length = size) := by
  rw [run?]
  simp only [hdone, Option.filter, decide_eq_true_eq]

theorem run?_of_wants (hmore : (!slices.isEmpty) = true)
    (hwants : Wants (i.feed state size out slice true) size out slice) :
    i.run? size state out (slice :: slices)
      = i.run? size (i.feed state size out slice true).state
          (out ++ (i.feed state size out slice true).written) slices := by
  rw [run?, hmore]
  rcases hwants with hstatus | ⟨hstatus, hfull, hread⟩
  · simp only [hstatus]
  · simp only [hstatus]
    rw [if_pos ⟨trivial, hfull, hread⟩]

theorem run?_of_stops (hmore : (!slices.isEmpty) = true)
    (hunfinished : (i.feed state size out slice true).status ≠ .done)
    (hstops : ¬ Wants (i.feed state size out slice true) size out slice) :
    i.run? size state out (slice :: slices) = none := by
  rw [run?, hmore]
  cases hstatus : (i.feed state size out slice true).status with
  | done => exact absurd hstatus hunfinished
  | needsMoreInput => exact absurd (.inl hstatus) hstops
  | hasMoreOutput =>
    simp only
    rw [if_neg fun h => hstops (.inr ⟨hstatus, h.2⟩)]
  | failed => rfl

theorem run?_of_last (hunfinished : (i.feed state size out slice false).status ≠ .done) :
    i.run? size state out [slice] = none := by
  have hlast : (!([] : List Bytes).isEmpty) = false := rfl
  rw [run?, hlast]
  cases hstatus : (i.feed state size out slice false).status with
  | done => exact absurd hstatus hunfinished
  | needsMoreInput => rfl
  | hasMoreOutput =>
    simp only
    rw [if_neg fun h => nomatch h.1]
  | failed => rfl

theorem run?_eq (hi : i.ReadsOneStream) (h : i.After size state input out) :
    i.run? size state out slices
      = (Zlib.contents? size (input ++ slices.flatten)).filter (·.length = size) := by
  induction slices generalizing state input out with
  | nil =>
    rw [List.flatten_nil, List.append_nil, h.contents?_eq_none hi]
    rfl
  | cons slice slices ih =>
    rw [List.flatten_cons, ← List.append_assoc]
    by_cases hdone : (i.feed state size out slice (!slices.isEmpty)).status = .done
    · rw [run?_of_done hdone,
        Zlib.contents?_append (hi.written_of_done h slice _ hdone) slices.flatten]
    · cases slices with
      | nil =>
        rw [List.flatten_nil, List.append_nil, hi.contents?_eq_none h _ hdone]
        exact run?_of_last hdone
      | cons next others =>
        by_cases hwants : Wants (i.feed state size out slice true) size out slice
        · rw [run?_of_wants rfl hwants]
          exact ih (.next h hwants)
        · rw [run?_of_stops rfl hdone hwants, hi.gives_up h slice hdone hwants]
          rfl

theorem inflate?_eq (hi : i.ReadsOneStream) (size : Nat) (slices : List Bytes) :
    i.inflate? size slices = Zlib.inflate? size slices.flatten := by
  rw [Zlib.inflate?_eq_filter]
  exact run?_eq hi .start

/-! ### An inflater that starts over -/

/-- The status after some input with `out` written. -/
def statusOf (size : Nat) (input out : Bytes) (more : Bool) : Status :=
  if (Zlib.contents? size input).isSome then .done
  else if !more then .failed
  else if out.length = size then .hasMoreOutput
  else .needsMoreInput

theorem statusOf_eq_done_iff {more : Bool} :
    statusOf size input out more = .done ↔ (Zlib.contents? size input).isSome = true := by
  unfold statusOf
  by_cases hsome : (Zlib.contents? size input).isSome = true
  · rw [if_pos hsome]
    exact ⟨fun _ => hsome, fun _ => rfl⟩
  · rw [if_neg hsome]
    refine ⟨fun hdone => ?_, fun h => absurd h hsome⟩
    split at hdone
    · cases hdone
    · split at hdone <;> cases hdone

theorem statusOf_of_ne_done (h : statusOf size input out true ≠ .done) :
    statusOf size input out true = .needsMoreInput
      ∨ statusOf size input out true = .hasMoreOutput ∧ out.length = size := by
  unfold statusOf at h ⊢
  split at h
  · exact absurd rfl h
  · rw [if_neg ‹_›]
    by_cases hfull : out.length = size
    · exact .inr ⟨by rw [if_pos hfull]; rfl, hfull⟩
    · exact .inl (by rw [if_neg hfull]; rfl)

/-- Keeps all its input and starts over with each slice. Once the blocks are complete it writes what
they give, even if bytes of the checksum are still missing. -/
def rereading : Inflater where
  State := Bytes
  start := []
  feed state size out slice more :=
    let input := state ++ slice
    let written := match Zlib.body? size input with
      | none => []
      | some result => result.1.toList.drop out.length
    ⟨input, statusOf size input (out ++ written) more, slice.length, written⟩

theorem append_written_rereading
    (hout : out = [] ∨ ∃ result, Zlib.body? size input = some result ∧ result.1.toList = out)
    (more : Bool) {result : Output × Bits}
    (hbody : Zlib.body? size (input ++ slice) = some result) :
    out ++ (rereading.feed input size out slice more).written = result.1.toList := by
  simp only [rereading, hbody]
  rcases hout with rfl | ⟨before, hbefore, rfl⟩
  · rfl
  · have hsame : result = (before.1, before.2.append slice) :=
      Option.some.inj (hbody.symm.trans (Zlib.body?_append hbefore slice))
    rw [hsame, List.drop_length, List.append_nil]

theorem After.rereading {state : rereading.State} (h : rereading.After size state input out) :
    input = state
      ∧ (out = [] ∨ ∃ result, Zlib.body? size input = some result ∧ result.1.toList = out) := by
  induction h with
  | start => exact ⟨rfl, .inl rfl⟩
  | @next state input out slice before wants ih =>
    obtain ⟨rfl, hout⟩ := ih
    refine ⟨rfl, ?_⟩
    cases hbody : Zlib.body? size (input ++ slice) with
    | none =>
      have hempty : out = [] := by
        rcases hout with hout | ⟨result, hbefore, -⟩
        · exact hout
        · cases hbody.symm.trans (Zlib.body?_append hbefore slice)
      refine .inl ?_
      rw [hempty]
      simp only [Inflater.rereading, hbody, List.append_nil]
    | some result =>
      exact .inr ⟨result, rfl, (append_written_rereading hout true hbody).symm⟩

theorem readsOneStream_rereading : rereading.ReadsOneStream where
  done_iff := by
    intro size state input out h slice more
    obtain ⟨rfl, -⟩ := h.rereading
    exact statusOf_eq_done_iff
  written_of_done := by
    intro size state input out h slice more hdone
    obtain ⟨rfl, hout⟩ := h.rereading
    obtain ⟨bytes, hbytes⟩ := Option.isSome_iff_exists.1 (statusOf_eq_done_iff.1 hdone)
    obtain ⟨result, hbody, -, hresult⟩ := Zlib.contents?_eq_some_iff.1 hbytes
    rw [append_written_rereading hout more hbody, hresult]
    exact hbytes
  gives_up := by
    intro size state input out h slice hunfinished hstops rest
    refine absurd ?_ hstops
    rcases statusOf_of_ne_done hunfinished with hneeds | ⟨hmore, hfull⟩
    · exact .inl hneeds
    · exact .inr ⟨hmore, hfull, rfl⟩

end Inflater

end DialGraphics.Deflate
