import DialGraphics.Draw.Frame
import Mathlib.Algebra.GroupWithZero.Nat
import Mathlib.Data.List.Forall2

/-!
# The layout of stored commands

Nothing says where the records of a list are but the records before them: each has a size that its
kind and its number of points give. A layout is what these sizes are made of. Reading finds exactly
the records of a layout, whatever follows them.
-/

namespace DialGraphics.Draw

/-- What the size of a record depends on. -/
structure RecordLayout where
  kind : Kind
  points : Nat
  deriving DecidableEq, Repr

def RecordLayout.size (l : RecordLayout) : Nat := 9 + 4 * l.points

/-- A stored command: nine bytes of header and four for each point. A circle has one point, and
every other kind at least two. -/
structure IsRecord (l : RecordLayout) (bytes : Bytes) : Prop where
  kind : bytes[0]? = some l.kind.number
  points : ∃ n0 n1, bytes[7]? = some n0 ∧ bytes[8]? = some n1 ∧ n0.toNat + 256 * n1.toNat = l.points
  suits : l.kind = .circle ∧ l.points = 1 ∨ l.kind ≠ .circle ∧ 2 ≤ l.points
  length : bytes.length = 9 + 4 * l.points

/-- A count and that many records back to back. -/
def IsCommandList (commands : List RecordLayout) (bytes : Bytes) : Prop :=
  ∃ n0 n1 records, bytes = n0 :: n1 :: List.flatten records
    ∧ n0.toNat + 256 * n1.toNat = commands.length ∧ List.Forall₂ IsRecord commands records

/-- A duration and a command list. -/
def IsFrame (commands : List RecordLayout) (bytes : Bytes) : Prop :=
  ∃ d0 d1 list, bytes = d0 :: d1 :: list ∧ IsCommandList commands list

theorem toNat_word16 (lo hi : UInt8) : (Bytes.word16 lo hi).toNat = lo.toNat + 256 * hi.toNat := by
  have hlo := lo.toNat_lt
  have hhi := hi.toNat_lt
  simp only [Bytes.word16, UInt16.toNat_ofNat']
  omega

/-! ### Kinds -/

namespace Kind

theorem ofNumber?_number (k : Kind) : ofNumber? k.number = some k := by
  cases k with
  | path => rfl
  | circle => rfl
  | precisePath => rfl

theorem eq_number_of_ofNumber? {byte : UInt8} {k : Kind} (h : ofNumber? byte = some k) :
    byte = k.number := by
  unfold ofNumber? at h
  split at h
  · cases h
    rfl
  · cases h
    rfl
  · cases h
    rfl
  · cases h

theorem allows_iff {k : Kind} {n : Nat} :
    k.allows n = true ↔ k = .circle ∧ n = 1 ∨ k ≠ .circle ∧ 2 ≤ n := by
  cases k with
  | circle => simp [allows]
  | path =>
    simp [allows]
    omega
  | precisePath =>
    simp [allows]
    omega

end Kind

/-! ### Records -/

def Record.layout (r : Record) : RecordLayout := ⟨r.kind, r.count.toNat⟩

variable {l : RecordLayout} {record : Bytes}

theorem IsRecord.eq_cons (h : IsRecord l record) :
    ∃ flags stroke width fill o0 o1 n0 n1 points,
      record = l.kind.number :: flags :: stroke :: width :: fill :: o0 :: o1 :: n0 :: n1 :: points
        ∧ n0.toNat + 256 * n1.toNat = l.points ∧ points.length = l.points * pointSize := by
  obtain ⟨hkind, ⟨n0, n1, hn0, hn1, hpoints⟩, -, hlength⟩ := h
  match record, hlength with
  | kind :: flags :: stroke :: width :: fill :: o0 :: o1 :: m0 :: m1 :: points, hlength =>
    cases hkind
    cases hn0
    cases hn1
    simp only [List.length_cons] at hlength
    refine ⟨flags, stroke, width, fill, o0, o1, n0, n1, points, rfl, hpoints, ?_⟩
    unfold pointSize
    omega

theorem IsRecord.read?_append (h : IsRecord l record) (rest : Bytes) :
    ∃ r, Record.read? (record ++ rest) = some (r, rest) ∧ r.layout = l
      ∧ r.size = record.length := by
  obtain ⟨flags, stroke, width, fill, o0, o1, n0, n1, points, rfl, hcount, hpoints⟩ := h.eq_cons
  have hword : (Bytes.word16 n0 n1).toNat = l.points := (toNat_word16 n0 n1).trans hcount
  have hsplit : Bytes.splitAt? (l.points * pointSize) (points ++ rest) = some (points, rest) :=
    Bytes.splitAt?_eq_some_iff.2 ⟨hpoints, rfl⟩
  simp only [Record.read?, List.cons_append, Kind.ofNumber?_number, hword,
    Kind.allows_iff.2 h.suits, if_true, hsplit, Option.map_some]
  refine ⟨_, rfl, ?_, ?_⟩
  · simp only [Record.layout, hword]
  · simp only [Record.size, recordHeaderSize, List.length_cons]
    omega

theorem exists_record_of_read? {bytes rest : Bytes} {r : Record}
    (h : Record.read? bytes = some (r, rest)) :
    ∃ record, bytes = record ++ rest ∧ IsRecord r.layout record := by
  unfold Record.read? at h
  split at h
  · rename_i number flags stroke width fill o0 o1 n0 n1 tail
    split at h
    · cases h
    · rename_i kind hkind
      simp only at h
      split at h
      · rename_i hallows
        obtain ⟨⟨points, tail'⟩, hsplit, hr⟩ := Option.map_eq_some_iff.1 h
        obtain ⟨hlength, rfl⟩ := Bytes.splitAt?_eq_some_iff.1 hsplit
        cases hr
        refine ⟨number :: flags :: stroke :: width :: fill :: o0 :: o1 :: n0 :: n1 :: points, rfl,
          ?_, ⟨n0, n1, rfl, rfl, ?_⟩, Kind.allows_iff.1 hallows, ?_⟩
        · rw [Kind.eq_number_of_ofNumber? hkind]
          rfl
        · exact (toNat_word16 n0 n1).symm
        · simp only [List.length_cons, hlength, pointSize, Record.layout]
          omega
      · cases h
  · cases h

theorem IsRecord.recordSize?_append (h : IsRecord l record) (rest : Bytes) :
    recordSize? (record ++ rest) = some record.length := by
  obtain ⟨r, hr, -, hsize⟩ := h.read?_append rest
  rw [recordSize?, hr, Option.map_some, hsize]

/-! ### Records back to back -/

variable {commands : List RecordLayout} {records : List Bytes}

theorem recordsSize?_append (h : List.Forall₂ IsRecord commands records) (rest : Bytes) :
    recordsSize? commands.length (records.flatten ++ rest) = some records.flatten.length := by
  induction h with
  | nil => rfl
  | cons hrecord hrecords ih =>
    rename_i l record commands records
    obtain ⟨r, hr, -, hsize⟩ := hrecord.read?_append (records.flatten ++ rest)
    simp only [List.flatten_cons, List.length_cons, List.append_assoc, recordsSize?, hr, ih,
      Option.map_some, hsize, List.length_append]

theorem exists_records_of_recordsSize? {n size : Nat} {bytes : Bytes}
    (h : recordsSize? n bytes = some size) :
    ∃ commands records rest, commands.length = n ∧ List.Forall₂ IsRecord commands records
      ∧ bytes = List.flatten records ++ rest ∧ size = (List.flatten records).length := by
  induction n generalizing bytes size with
  | zero =>
    cases h
    exact ⟨[], [], bytes, rfl, .nil, rfl, rfl⟩
  | succ n ih =>
    simp only [recordsSize?] at h
    split at h
    · cases h
    · rename_i r tail hr
      obtain ⟨size', hsize', rfl⟩ := Option.map_eq_some_iff.1 h
      obtain ⟨commands, records, rest, hn, hrecords, rfl, rfl⟩ := ih hsize'
      obtain ⟨record, rfl, hrecord⟩ := exists_record_of_read? hr
      have hlength := Record.length_of_read? hr
      refine ⟨r.layout :: commands, record :: records, rest, ?_, .cons hrecord hrecords, ?_, ?_⟩
      · rw [List.length_cons, hn]
      · rw [List.flatten_cons, List.append_assoc]
      · simp only [List.flatten_cons, List.length_append] at hlength ⊢
        omega

theorem map_eq_map_of_forall₂ {α β γ : Type} {R : α → β → Prop} {f : α → γ} {g : β → γ}
    {as : List α} {bs : List β} (hR : ∀ a b, R a b → g b = f a) (h : List.Forall₂ R as bs) :
    bs.map g = as.map f := by
  induction h with
  | nil => rfl
  | cons hab _ ih => rw [List.map_cons, List.map_cons, hR _ _ hab, ih]

theorem map_length_records (h : List.Forall₂ IsRecord commands records) :
    records.map List.length = commands.map RecordLayout.size :=
  map_eq_map_of_forall₂ (fun _ _ hrecord => hrecord.length) h

theorem walk_append (h : List.Forall₂ IsRecord commands records) (rest : Bytes) :
    (CommandList.walk commands.length (records.flatten ++ rest)).map Record.layout = commands
      ∧ (CommandList.walk commands.length (records.flatten ++ rest)).map Record.size
        = commands.map RecordLayout.size := by
  induction h with
  | nil => exact ⟨rfl, rfl⟩
  | cons hrecord hrecords ih =>
    rename_i l record commands records
    obtain ⟨r, hr, hlayout, hsize⟩ := hrecord.read?_append (records.flatten ++ rest)
    rw [hrecord.length] at hsize
    simp only [List.flatten_cons, List.length_cons, List.append_assoc, CommandList.walk, hr,
      List.map_cons, hlayout, hsize, ih, RecordLayout.size, and_self]

/-! ### Command lists -/

variable {list : Bytes}

/-- What a view of a list finds: as many commands as are declared, up to the end of the list. -/
structure CommandList.Has (l : CommandList) (commands : List RecordLayout) : Prop where
  count : l.count.toNat = commands.length
  layouts : l.toList.map Record.layout = commands
  sizes : l.toList.map Record.size = commands.map RecordLayout.size
  size : l.size = countSize + (commands.map RecordLayout.size).sum

theorem CommandList.Has.length_toList {l : CommandList} (h : l.Has commands) :
    l.toList.length = l.count.toNat := by
  rw [h.count, ← h.layouts, List.length_map]

theorem IsCommandList.length (h : IsCommandList commands list) :
    list.length = countSize + (commands.map RecordLayout.size).sum := by
  obtain ⟨n0, n1, records, rfl, -, hrecords⟩ := h
  rw [← map_length_records hrecords, ← List.length_flatten, List.length_cons, List.length_cons,
    countSize]
  omega

theorem IsCommandList.listSize?_append (h : IsCommandList commands list) (rest : Bytes) :
    listSize? (list ++ rest) = some list.length := by
  obtain ⟨n0, n1, records, rfl, hcount, hrecords⟩ := h
  simp only [listSize?, List.cons_append, Bytes.word16?, toNat_word16, hcount,
    recordsSize?_append hrecords rest, Option.map_some, countSize, List.length_cons,
    Option.some.injEq]
  omega

theorem exists_list_of_listSize? {bytes : Bytes} {size : Nat} (h : listSize? bytes = some size) :
    ∃ commands list rest, IsCommandList commands list ∧ bytes = list ++ rest
      ∧ size = list.length := by
  unfold listSize? at h
  split at h
  · cases h
  · rename_i count tail hword
    obtain ⟨size', hsize', rfl⟩ := Option.map_eq_some_iff.1 h
    obtain ⟨commands, records, rest, hcount, hrecords, rfl, rfl⟩ :=
      exists_records_of_recordsSize? hsize'
    match bytes, hword with
    | n0 :: n1 :: _, hword =>
      cases hword
      rw [toNat_word16] at hcount
      refine ⟨commands, n0 :: n1 :: records.flatten, rest, ⟨n0, n1, records, rfl, hcount.symm,
        hrecords⟩, rfl, ?_⟩
      simp only [countSize, List.length_cons]
      omega

theorem IsCommandList.has_ofChecked (h : IsCommandList commands list) :
    (CommandList.ofChecked list).Has commands := by
  have hlength := h.length
  obtain ⟨n0, n1, records, rfl, hcount, hrecords⟩ := h
  obtain ⟨hlayouts, hsizes⟩ := walk_append hrecords []
  rw [List.append_nil] at hlayouts hsizes
  have hword : (Bytes.word16 n0 n1).toNat = commands.length := (toNat_word16 n0 n1).trans hcount
  rw [← hword] at hlayouts hsizes
  refine ⟨hword, hlayouts, hsizes, ?_⟩
  rw [← hlength]
  simp only [CommandList.ofChecked, Bytes.word16?, CommandList.size, countSize, List.length_cons]
  omega

/-! ### Frames -/

variable {frame : Bytes}

theorem IsFrame.frameSize?_append (h : IsFrame commands frame) (rest : Bytes) :
    frameSize? (frame ++ rest) = some frame.length := by
  obtain ⟨d0, d1, list, rfl, hlist⟩ := h
  simp only [frameSize?, List.cons_append, Bytes.word16?, hlist.listSize?_append rest,
    Option.map_some, durationSize, List.length_cons, Option.some.injEq]
  omega

theorem exists_frame_of_frameSize? {bytes : Bytes} {size : Nat} (h : frameSize? bytes = some size) :
    ∃ commands frame rest, IsFrame commands frame ∧ bytes = frame ++ rest
      ∧ size = frame.length := by
  unfold frameSize? at h
  split at h
  · cases h
  · rename_i duration tail hword
    obtain ⟨size', hsize', rfl⟩ := Option.map_eq_some_iff.1 h
    obtain ⟨commands, list, rest, hlist, rfl, rfl⟩ := exists_list_of_listSize? hsize'
    match bytes, hword with
    | d0 :: d1 :: _, hword =>
      cases hword
      refine ⟨commands, d0 :: d1 :: list, rest, ⟨d0, d1, list, rfl, hlist⟩, rfl, ?_⟩
      simp only [durationSize, List.length_cons]
      omega

/-- What a view of a frame finds. -/
structure Frame.Has (f : Frame) (commands : List RecordLayout) : Prop where
  has : f.commands.Has commands
  size : f.size = durationSize + countSize + (commands.map RecordLayout.size).sum

theorem IsFrame.length (h : IsFrame commands frame) :
    frame.length = durationSize + countSize + (commands.map RecordLayout.size).sum := by
  obtain ⟨d0, d1, list, rfl, hlist⟩ := h
  rw [List.length_cons, List.length_cons, hlist.length, durationSize]
  omega

theorem IsFrame.read?_append (h : IsFrame commands frame) (rest : Bytes) :
    ∃ f, Frame.read? (frame ++ rest) = some (f, rest) ∧ f.Has commands := by
  obtain ⟨d0, d1, list, rfl, hlist⟩ := h
  have hhas := hlist.has_ofChecked
  have hread : CommandList.read? (list ++ rest) = some (.ofChecked list, rest) := by
    rw [CommandList.read?, hlist.listSize?_append rest]
    simp only [List.take_left, List.drop_left]
  simp only [Frame.read?, List.cons_append, Bytes.word16?, hread, Option.map_some]
  refine ⟨_, rfl, hhas, ?_⟩
  rw [Frame.size, hhas.size, Nat.add_assoc]

/-! ### Frames back to back -/

variable {frames : List (List RecordLayout)} {parts : List Bytes}

theorem walk_frames (h : List.Forall₂ IsFrame frames parts) (rest : Bytes) :
    List.Forall₂ (fun commands f => f.Has commands) frames
      (Frame.walk frames.length (parts.flatten ++ rest)) := by
  induction h with
  | nil => exact .nil
  | cons hframe hframes ih =>
    rename_i commands frame frames parts
    obtain ⟨f, hf, hhas⟩ := hframe.read?_append (parts.flatten ++ rest)
    simp only [List.flatten_cons, List.length_cons, List.append_assoc, Frame.walk, hf]
    exact .cons hhas ih

theorem map_length_frames (h : List.Forall₂ IsFrame frames parts) {walked : List Frame}
    (hw : List.Forall₂ (fun commands f => f.Has commands) frames walked) :
    parts.map List.length = walked.map Frame.size := by
  rw [map_eq_map_of_forall₂ (fun _ _ hframe => hframe.length) h,
    map_eq_map_of_forall₂ (fun _ _ hf => hf.size) hw]

end DialGraphics.Draw
