import DialGraphics.Proofs.Draw.ListEdits
import DialGraphics.Proofs.Draw.Validation
import DialGraphics.Proofs.Resource.HeapCopies
import DialGraphics.Workspace.DrawAction

/-!
# Changes to images and sequences

A container that may be written to keeps its layout under every change, so that it stays valid and
as long as it was. A change reaches one frame, one record or one word of the header, and all other
bytes stay.
-/

namespace DialGraphics.Draw

theorem Backing.toBytes_replace {b : Backing} {bytes : Bytes} (hb : b.isMapped = false)
    (hlength : bytes.length = b.toBytes.length) : (b.replace bytes).toBytes = bytes := by
  cases b with
  | resource r => exact ResourceBytes.toBytes_replace hb hlength
  | owned old => rfl

theorem Backing.isMapped_replace (b : Backing) (bytes : Bytes) :
    (b.replace bytes).isMapped = b.isMapped := by
  cases b with
  | resource r => cases r <;> rfl
  | owned old => rfl

theorem Backing.modify_mapped {b : Backing} (hb : b.isMapped = true)
    (change : Bytes → Option Bytes) : b.modify change = .error .badParameter := if_pos hb

theorem Backing.modify_overwrite {b : Backing} (change : Bytes → Option Bytes) {pos : Nat}
    (new : Bytes) (hb : b.isMapped = false) (hroom : pos + new.length ≤ b.toBytes.length)
    (hchange : change b.toBytes = some (b.toBytes.overwrite pos new)) :
    ∃ b', b.modify change = .ok b' ∧ b'.toBytes = b.toBytes.overwrite pos new
      ∧ b'.isMapped = false ∧ Bytes.DiffersWithin pos new.length b.toBytes b'.toBytes := by
  have hbytes := toBytes_replace hb (Bytes.length_overwrite hroom)
  refine ⟨b.replace _, ?_, hbytes, ?_, ?_⟩
  · rw [modify, if_neg (Bool.eq_false_iff.1 hb), hchange]
  · rw [isMapped_replace, hb]
  · rw [hbytes]
    exact Bytes.differsWithin_overwrite hroom

/-! ### Frames -/

namespace FrameEdit

def durationBytes (e : FrameEdit) (frame : Bytes) : Bytes :=
  match e.duration with
  | none => frame.take durationSize
  | some duration => Bytes.ofWord16 duration

variable {commands : List RecordLayout} {frame : Bytes}

theorem apply_eq (e : FrameEdit) (d0 d1 : UInt8) (list : Bytes) :
    (e.apply (d0 :: d1 :: list)).2
      = e.durationBytes (d0 :: d1 :: list) ++ (ListEdit.applyToList e.edits list).2 := by
  cases hduration : e.duration with
  | none =>
    simp only [apply, durationBytes, hduration]
    rfl
  | some duration =>
    simp only [apply, durationBytes, hduration]
    rfl

theorem isFrame_apply (e : FrameEdit) (h : IsFrame commands frame) :
    IsFrame commands (e.apply frame).2 := by
  obtain ⟨d0, d1, list, rfl, hlist⟩ := h
  have hlist' := ListEdit.isCommandList_applyToList e.edits hlist
  rw [apply_eq]
  cases hduration : e.duration with
  | none =>
    rw [durationBytes, hduration]
    exact ⟨d0, d1, _, rfl, hlist'⟩
  | some duration =>
    rw [durationBytes, hduration]
    exact ⟨_, _, _, rfl, hlist'⟩

theorem apply_edits (e : FrameEdit) (h : IsFrame commands frame) :
    ∃ count records, frame = frame.take 2 ++ count ++ List.flatten records ∧ count.length = 2
      ∧ List.Forall₂ IsRecord commands records
      ∧ (e.apply frame).2
        = e.durationBytes frame ++ count ++ (ListEdit.editRecords e.edits records).flatten := by
  obtain ⟨d0, d1, list, rfl, n0, n1, records, rfl, hcount, hrecords⟩ := h
  refine ⟨[n0, n1], records, rfl, rfl, hrecords, ?_⟩
  rw [apply_eq, ListEdit.applyToList_eq e.edits hcount hrecords, List.append_assoc]
  rfl

theorem apply_one {index : Nat} (s : Setting) (h : IsFrame commands frame)
    (hindex : index < commands.length) :
    ∃ result after new, (mk none [.one index [s]]).apply frame = ([.changed [result] after], new)
      ∧ (result = .ok () ∧ s.ChangesField (durationSize
            + ListEdit.commandStart (commands.map RecordLayout.size) index) frame new
        ∨ ∃ e, result = .error e ∧ new = frame) := by
  obtain ⟨d0, d1, list, rfl, hlist⟩ := h
  obtain ⟨result, after, new, happly, hone⟩ := ListEdit.applyToList_one s hlist hindex
  refine ⟨result, after, d0 :: d1 :: new, ?_, ?_⟩
  · simp only [apply, durationSize, List.drop_succ_cons, List.drop_zero, List.take_succ_cons,
      List.take_zero, happly]
    rfl
  · rcases hone with ⟨hok, hfield⟩ | ⟨e, herror, hsame⟩
    · have happend := hfield.append [d0, d1] []
      rw [List.append_nil, List.append_nil] at happend
      exact Or.inl ⟨hok, happend⟩
    · exact Or.inr ⟨e, herror, by rw [hsame]⟩

theorem apply_duration (duration : UInt16) (h : IsFrame commands frame) :
    Bytes.DiffersWithin 0 2 frame ((mk (some duration) []).apply frame).2 := by
  obtain ⟨d0, d1, list, rfl, n0, n1, records, rfl, hcount, hrecords⟩ := h
  have hnew := ListEdit.applyToList_eq [] hcount hrecords
  rw [ListEdit.editRecords_nil] at hnew
  rw [apply_eq, hnew]
  have hroom : 0 + (Bytes.ofWord16 duration).length
      ≤ (d0 :: d1 :: n0 :: n1 :: records.flatten).length := by
    rw [Bytes.length_ofWord16]
    simp only [List.length_cons]
    omega
  exact Bytes.differsWithin_overwrite hroom

end FrameEdit

/-! ### Images -/

namespace Image

/-- One image is another one with other values in it. -/
structure KeepsLayout (i i' : Image) : Prop where
  valid : validate i'.toBytes = .ok ()
  length : i'.toBytes.length = i.toBytes.length
  mapped : i'.backing.isMapped = i.backing.isMapped
  count : i'.commands.count = i.commands.count
  layouts : i'.commands.toList.map Record.layout = i.commands.toList.map Record.layout
  sizes : i'.commands.toList.map Record.size = i.commands.toList.map Record.size

variable {i : Image} {commands : List RecordLayout}

theorem isImage_append {version reserved w0 w1 h0 h1 : UInt8} {list : Bytes}
    (hversion : version ≤ 1) (hlist : IsCommandList commands list) :
    IsImage commands (version :: reserved :: w0 :: w1 :: h0 :: h1 :: list) :=
  ⟨version, reserved, w0, w1, h0, h1, list, rfl, hversion, hlist⟩

theorem length_of_isImage {bytes : Bytes} (h : IsImage commands bytes) :
    bytes.length = prologueSize + (countSize + (commands.map RecordLayout.size).sum) := by
  obtain ⟨version, reserved, w0, w1, h0, h1, list, rfl, -, hlist⟩ := h
  rw [← hlist.length]
  simp only [List.length_cons, prologueSize]
  omega

theorem keepsLayout {i' : Image} (h : IsImage commands i.toBytes)
    (h' : IsImage commands i'.toBytes) (hmapped : i'.backing.isMapped = i.backing.isMapped) :
    i.KeepsLayout i' := by
  obtain ⟨hhas, -⟩ := has_commands h
  obtain ⟨hhas', -⟩ := has_commands h'
  refine ⟨validate_eq_ok_iff.2 ⟨commands, h'⟩, ?_, hmapped, ?_, ?_, ?_⟩
  · rw [length_of_isImage h, length_of_isImage h']
  · apply UInt16.toNat_inj.1
    rw [hhas.count, hhas'.count]
  · rw [hhas.layouts, hhas'.layouts]
  · rw [hhas.sizes, hhas'.sizes]

theorem setCanvas_spec (h : IsImage commands i.toBytes) (hi : i.backing.isMapped = false)
    (canvas : Size) :
    ∃ i', i.setCanvas canvas = .ok i' ∧ IsImage commands i'.toBytes
      ∧ i'.backing.isMapped = false ∧ Bytes.DiffersWithin 2 4 i.toBytes i'.toBytes := by
  have hlength : prologueSize ≤ i.backing.toBytes.length := by
    rw [← toBytes, length_of_isImage h]
    exact Nat.le_add_right ..
  obtain ⟨b', hb', hbytes, hmapped, hwithin⟩ := Backing.modify_overwrite (writeCanvas? · canvas)
    (encodePair canvas.w canvas.h) hi hlength (if_pos hlength)
  refine ⟨⟨b'⟩, ?_, ?_, hmapped, hwithin⟩
  · rw [setCanvas, hb']
    rfl
  · obtain ⟨version, reserved, w0, w1, h0, h1, list, hold, hversion, hlist⟩ := h
    rw [toBytes, hbytes, ← toBytes, hold]
    exact isImage_append hversion hlist

theorem edit?_spec (h : IsImage commands i.toBytes) (hi : i.backing.isMapped = false) :
    ∃ header list, i.toBytes = header ++ list ∧ header.length = prologueSize
      ∧ IsCommandList commands list ∧ ∀ edits, ∃ i',
        i.edit? edits = some ((ListEdit.applyToList edits list).1, i')
          ∧ IsImage commands i'.toBytes ∧ i'.backing.isMapped = false
          ∧ i'.toBytes = header ++ (ListEdit.applyToList edits list).2 := by
  have hlength := length_of_isImage h
  obtain ⟨version, reserved, w0, w1, h0, h1, list, hold, hversion, hlist⟩ := h
  refine ⟨[version, reserved, w0, w1, h0, h1], list, hold, rfl, hlist, fun edits => ?_⟩
  have himage : IsImage commands (version :: reserved :: w0 :: w1 :: h0 :: h1
      :: (ListEdit.applyToList edits list).2) :=
    isImage_append hversion (ListEdit.isCommandList_applyToList edits hlist)
  have hbytes := Backing.toBytes_replace hi ((length_of_isImage himage).trans hlength.symm)
  refine ⟨⟨i.backing.replace _⟩, ?_, ?_, ?_, hbytes⟩
  · rw [edit?, if_neg (Bool.eq_false_iff.1 hi), hold]
    rfl
  · rw [toBytes, hbytes]
    exact himage
  · rw [Backing.isMapped_replace, hi]

/-- What changes to an image do to its bytes. Edits make each record what its own settings make of
it, and leave the header and the count before them. A setter writes its own field or nothing. -/
structure IsEditedInPlace (i : Image) : Prop where
  edits : ∃ header records, i.toBytes = header ++ List.flatten records ∧ header.length = 8
    ∧ List.Forall₂ IsRecord (i.commands.toList.map Record.layout) records
    ∧ ∀ edits, ∃ results i', i.edit? edits = some (results, i')
      ∧ i'.toBytes = header ++ (ListEdit.editRecords edits records).flatten
  setter : ∀ index (s : Setting), index < i.commands.count.toNat →
    ∃ result after i', i.edit? [.one index [s]] = some ([.changed [result] after], i')
      ∧ (result = .ok () ∧ s.ChangesField (prologueSize
            + ListEdit.commandStart (i.commands.toList.map Record.size) index) i.toBytes i'.toBytes
        ∨ ∃ e, result = .error e ∧ i'.toBytes = i.toBytes)
  canvas : ∀ canvas, ∃ i', i.setCanvas canvas = .ok i'
    ∧ Bytes.DiffersWithin 2 4 i.toBytes i'.toBytes

theorem isEditedInPlace (h : IsImage commands i.toBytes) (hi : i.backing.isMapped = false) :
    i.IsEditedInPlace := by
  obtain ⟨hhas, -⟩ := has_commands h
  obtain ⟨header, list, hold, hheader, hlist, hedits⟩ := edit?_spec h hi
  refine ⟨?_, ?_, ?_⟩
  · obtain ⟨n0, n1, records, rfl, hcount, hrecords⟩ := hlist
    refine ⟨header ++ [n0, n1], records, ?_, ?_, ?_, fun edits => ?_⟩
    · rw [hold, List.append_assoc]
      rfl
    · rw [List.length_append, hheader]
      rfl
    · rw [hhas.layouts]
      exact hrecords
    · obtain ⟨i', hedit, -, -, hnew⟩ := hedits edits
      refine ⟨_, i', hedit, ?_⟩
      rw [hnew, ListEdit.applyToList_eq edits hcount hrecords, List.append_assoc]
      rfl
  · intro index s hindex
    obtain ⟨i', hedit, -, -, hnew⟩ := hedits [.one index [s]]
    obtain ⟨result, after, new, happly, hone⟩ :=
      ListEdit.applyToList_one s hlist (hhas.count ▸ hindex)
    rw [happly] at hedit hnew
    refine ⟨result, after, i', hedit, ?_⟩
    rcases hone with ⟨hok, hfield⟩ | ⟨e, herror, hsame⟩
    · have happend := hfield.append header []
      rw [List.append_nil, List.append_nil, hheader] at happend
      rw [hhas.sizes, hold, hnew]
      exact Or.inl ⟨hok, happend⟩
    · refine Or.inr ⟨e, herror, ?_⟩
      rw [hnew, hold, hsame]
  · intro canvas
    obtain ⟨i', hset, -, -, hwithin⟩ := setCanvas_spec h hi canvas
    exact ⟨i', hset, hwithin⟩

theorem run_spec (h : IsImage commands i.toBytes) (a : ImageAction) :
    IsImage commands (a.run i).2.toBytes
      ∧ (a.run i).2.backing.isMapped = i.backing.isMapped := by
  cases a with
  | describe => exact ⟨h, rfl⟩
  | get index => exact ⟨h, rfl⟩
  | visit stop => exact ⟨h, rfl⟩
  | draw request => exact ⟨h, rfl⟩
  | setCanvas canvas =>
    cases hi : i.backing.isMapped with
    | true =>
      have hset : i.setCanvas canvas = .error .badParameter := by
        rw [setCanvas, Backing.modify_mapped hi]
        rfl
      simp only [ImageAction.run, hset]
      exact ⟨h, hi⟩
    | false =>
      obtain ⟨i', hset, himage, hmapped, -⟩ := setCanvas_spec h hi canvas
      simp only [ImageAction.run, hset]
      exact ⟨himage, hmapped⟩
  | edit edits =>
    cases hi : i.backing.isMapped with
    | true =>
      have hedit : i.edit? edits = none := if_pos hi
      simp only [ImageAction.run, hedit]
      exact ⟨h, hi⟩
    | false =>
      obtain ⟨header, list, -, -, -, hedits⟩ := edit?_spec h hi
      obtain ⟨i', hedit, himage, hmapped, -⟩ := hedits edits
      simp only [ImageAction.run, hedit]
      exact ⟨himage, hmapped⟩

theorem runAll_spec (h : IsImage commands i.toBytes) (actions : List ImageAction) :
    IsImage commands (ImageAction.runAll actions i).2.toBytes
      ∧ (ImageAction.runAll actions i).2.backing.isMapped = i.backing.isMapped := by
  induction actions generalizing i with
  | nil => exact ⟨h, rfl⟩
  | cons a actions ih =>
    obtain ⟨himage, hmapped⟩ := run_spec h a
    obtain ⟨himage', hmapped'⟩ := ih himage
    exact ⟨himage', hmapped'.trans hmapped⟩

end Image

/-! ### Sequences -/

namespace Sequence

/-- One sequence is another one with other values in it. -/
structure KeepsLayout (s s' : Sequence) : Prop where
  valid : validate s'.toBytes = .ok ()
  length : s'.toBytes.length = s.toBytes.length
  mapped : s'.backing.isMapped = s.backing.isMapped
  count : s'.frameCount = s.frameCount
  counts : s'.frames.map (·.commands.count) = s.frames.map (·.commands.count)
  layouts : (s'.frames.map fun f => f.commands.toList.map Record.layout)
    = s.frames.map fun f => f.commands.toList.map Record.layout
  sizes : (s'.frames.map fun f => f.commands.toList.map Record.size)
    = s.frames.map fun f => f.commands.toList.map Record.size

variable {s : Sequence} {frames : List (List RecordLayout)} {parts : List Bytes}

theorem isSequence_append {version reserved w0 w1 h0 h1 p0 p1 n0 n1 : UInt8}
    (hversion : version ≤ 1) (hcount : n0.toNat + 256 * n1.toNat = frames.length)
    (hpositive : 1 ≤ frames.length) (hframes : List.Forall₂ IsFrame frames parts) :
    IsSequence frames
      (version :: reserved :: w0 :: w1 :: h0 :: h1 :: p0 :: p1 :: n0 :: n1 :: parts.flatten) :=
  ⟨version, reserved, w0, w1, h0, h1, p0, p1, n0, n1, parts, rfl, hversion, hcount, hpositive,
    hframes⟩

theorem length_of_isSequence {bytes : Bytes} (h : IsSequence frames bytes) :
    bytes.length = headerSize + (frames.map fun commands =>
      durationSize + countSize + (commands.map RecordLayout.size).sum).sum := by
  obtain ⟨-, hhas, hlength⟩ := has_frames (s := ⟨.owned bytes⟩) h
  rw [map_eq_map_of_forall₂ (fun _ _ hf => hf.size) hhas] at hlength
  exact hlength.symm

theorem layouts_eq (h : IsSequence frames s.toBytes) :
    (s.frames.map fun f => f.commands.toList.map Record.layout) = frames := by
  obtain ⟨-, hhas, -⟩ := has_frames h
  rw [map_eq_map_of_forall₂ (fun _ _ hf => hf.has.layouts) hhas, List.map_id']

theorem keepsLayout {s' : Sequence} (h : IsSequence frames s.toBytes)
    (h' : IsSequence frames s'.toBytes) (hmapped : s'.backing.isMapped = s.backing.isMapped) :
    s.KeepsLayout s' := by
  obtain ⟨hcount, hhas, -⟩ := has_frames h
  obtain ⟨hcount', hhas', -⟩ := has_frames h'
  have hword : ∀ (commands : List RecordLayout) (f : Frame), f.Has commands →
      f.commands.count = UInt16.ofNat commands.length := by
    intro commands f hf
    rw [← hf.has.count, UInt16.ofNat_toNat]
  refine ⟨validate_eq_ok_iff.2 ⟨frames, h'⟩, ?_, hmapped, ?_, ?_, ?_, ?_⟩
  · rw [length_of_isSequence h, length_of_isSequence h']
  · apply UInt16.toNat_inj.1
    rw [hcount, hcount']
  · rw [map_eq_map_of_forall₂ hword hhas, map_eq_map_of_forall₂ hword hhas']
  · rw [layouts_eq h, layouts_eq h']
  · rw [map_eq_map_of_forall₂ (fun _ _ hf => hf.has.sizes) hhas,
      map_eq_map_of_forall₂ (fun _ _ hf => hf.has.sizes) hhas']

theorem headerSize_le (h : IsSequence frames s.toBytes) :
    headerSize ≤ s.backing.toBytes.length := by
  rw [← toBytes, length_of_isSequence h]
  exact Nat.le_add_right ..

theorem setCanvas_spec (h : IsSequence frames s.toBytes) (hs : s.backing.isMapped = false)
    (canvas : Size) :
    ∃ s', s.setCanvas canvas = .ok s' ∧ IsSequence frames s'.toBytes
      ∧ s'.backing.isMapped = false ∧ Bytes.DiffersWithin 2 4 s.toBytes s'.toBytes := by
  have hlength : prologueSize ≤ s.backing.toBytes.length :=
    Nat.le_trans (by decide) (headerSize_le h)
  obtain ⟨b', hb', hbytes, hmapped, hwithin⟩ := Backing.modify_overwrite (writeCanvas? · canvas)
    (encodePair canvas.w canvas.h) hs hlength (if_pos hlength)
  refine ⟨⟨b'⟩, ?_, ?_, hmapped, hwithin⟩
  · rw [setCanvas, hb']
    rfl
  · obtain ⟨version, reserved, w0, w1, h0, h1, p0, p1, n0, n1, parts, hold, hversion, hcount,
      hpositive, hframes⟩ := h
    rw [toBytes, hbytes, ← toBytes, hold]
    exact isSequence_append hversion hcount hpositive hframes

theorem setPlayCount_overwrite (hlength : headerSize ≤ s.backing.toBytes.length)
    (hs : s.backing.isMapped = false) (count : UInt16) :
    ∃ s', s.setPlayCount count = .ok s'
      ∧ s'.toBytes = s.toBytes.overwrite playCountOffset (Bytes.ofWord16 count)
      ∧ s'.backing.isMapped = false ∧ Bytes.DiffersWithin 6 2 s.toBytes s'.toBytes := by
  have hroom : playCountOffset + 2 ≤ s.backing.toBytes.length := Nat.le_trans (by decide) hlength
  obtain ⟨b', hb', hbytes, hmapped, hwithin⟩ := Backing.modify_overwrite
    (fun bytes => if playCountOffset + 2 ≤ bytes.length then
      some (bytes.overwrite playCountOffset (Bytes.ofWord16 count)) else none)
    (Bytes.ofWord16 count) hs hroom (if_pos hroom)
  refine ⟨⟨b'⟩, ?_, hbytes, hmapped, hwithin⟩
  rw [setPlayCount, hb']
  rfl

theorem setPlayCount_spec (h : IsSequence frames s.toBytes) (hs : s.backing.isMapped = false)
    (count : UInt16) :
    ∃ s', s.setPlayCount count = .ok s' ∧ IsSequence frames s'.toBytes
      ∧ s'.backing.isMapped = false ∧ Bytes.DiffersWithin 6 2 s.toBytes s'.toBytes := by
  obtain ⟨s', hset, hbytes, hmapped, hwithin⟩ := setPlayCount_overwrite (headerSize_le h) hs count
  refine ⟨s', hset, ?_, hmapped, hwithin⟩
  obtain ⟨version, reserved, w0, w1, h0, h1, p0, p1, n0, n1, parts, hold, hversion, hcount,
    hpositive, hframes⟩ := h
  rw [hbytes, hold]
  exact isSequence_append hversion hcount hpositive hframes

theorem locateFrame?_flatten (h : List.Forall₂ IsFrame frames parts) (k : Nat) :
    locateFrame? k parts.flatten = parts[k]?.map fun frame =>
      ((parts.take k).flatten, frame, (parts.drop (k + 1)).flatten) := by
  induction h generalizing k with
  | nil =>
    unfold locateFrame?
    rfl
  | cons hframe hframes ih =>
    rw [List.flatten_cons, locateFrame?, hframe.frameSize?_append]
    simp only [List.take_left, List.drop_left]
    cases k with
    | zero => rfl
    | succ k =>
      simp only [ih, List.getElem?_cons_succ, Option.map_map, List.take_succ_cons,
        List.drop_succ_cons, List.flatten_cons]
      rfl

theorem forall₂_modify (h : List.Forall₂ IsFrame frames parts) (e : FrameEdit) (k : Nat) :
    List.Forall₂ IsFrame frames (parts.modify k fun frame => (e.apply frame).2) := by
  induction h generalizing k with
  | nil =>
    rw [List.modify_nil]
    exact .nil
  | cons hframe hframes ih =>
    cases k with
    | zero => exact .cons (e.isFrame_apply hframe) hframes
    | succ k => exact .cons hframe (ih k)

theorem editFrame?_spec (h : IsSequence frames s.toBytes) (hs : s.backing.isMapped = false) :
    ∃ header parts, s.toBytes = header ++ List.flatten parts ∧ header.length = headerSize
      ∧ List.Forall₂ IsFrame frames parts ∧ ∀ (k : Nat) (hk : k < parts.length) (e : FrameEdit),
        ∃ shown s', s.editFrame? k e = some (((e.apply parts[k]).1, shown), s')
          ∧ IsSequence frames s'.toBytes ∧ s'.backing.isMapped = false
          ∧ s'.toBytes = header ++ (parts.modify k fun frame => (e.apply frame).2).flatten := by
  have hlength := length_of_isSequence h
  obtain ⟨hnumber, -, -⟩ := has_frames h
  obtain ⟨version, reserved, w0, w1, h0, h1, p0, p1, n0, n1, parts, hold, hversion, hcount,
    hpositive, hframes⟩ := h
  refine ⟨[version, reserved, w0, w1, h0, h1, p0, p1, n0, n1], parts, hold, rfl, hframes, ?_⟩
  intro k hk e
  have hparts := forall₂_modify hframes e k
  have hsequence : IsSequence frames (version :: reserved :: w0 :: w1 :: h0 :: h1 :: p0 :: p1
      :: n0 :: n1 :: (parts.modify k fun frame => (e.apply frame).2).flatten) :=
    isSequence_append hversion hcount hpositive hparts
  have hbytes := Backing.toBytes_replace hs
    ((length_of_isSequence hsequence).trans hlength.symm)
  have hopen : ¬(s.frameCount.toNat ≤ k ∨ s.backing.isMapped = true) := by
    rw [hs, not_or, hnumber, hframes.length_eq]
    exact ⟨Nat.not_le_of_lt hk, Bool.false_ne_true⟩
  refine ⟨(Frame.read? (e.apply parts[k]).2).map (·.1), ⟨s.backing.replace _⟩, ?_, ?_, ?_, hbytes⟩
  · rw [editFrame?, if_neg hopen, hold]
    simp only [headerSize, List.drop_succ_cons, List.drop_zero, List.take_succ_cons,
      List.take_zero, locateFrame?_flatten hframes, List.getElem?_eq_getElem hk,
      Option.map_some, List.modify_eq_take_cons_drop hk, List.flatten_append,
      List.flatten_cons, List.append_assoc, List.cons_append, List.nil_append]
  · rw [toBytes, hbytes]
    exact hsequence
  · rw [Backing.isMapped_replace, hs]

def frameStart (sizes : List Nat) (k : Nat) : Nat := headerSize + (sizes.take k).sum

/-- What changes to a sequence do to its bytes. An edit changes one frame and nothing else, and a
setter writes its own field or nothing. -/
structure IsEditedInPlace (s : Sequence) : Prop where
  edits : ∃ header parts, s.toBytes = header ++ List.flatten parts ∧ header.length = 10
    ∧ List.Forall₂ IsFrame (s.frames.map fun f => f.commands.toList.map Record.layout) parts
    ∧ ∀ k e, k < s.frameCount.toNat → ∃ results s', s.editFrame? k e = some (results, s')
      ∧ s'.toBytes = header ++ (parts.modify k fun frame => (e.apply frame).2).flatten
  setter : ∀ k f, s.frame? k = some f → ∀ index (setting : Setting),
    index < f.commands.count.toNat →
      ∃ result after shown s', s.editFrame? k ⟨none, [.one index [setting]]⟩
          = some (([.changed [result] after], shown), s')
        ∧ (result = .ok () ∧ setting.ChangesField (frameStart (s.frames.map Frame.size) k
              + (durationSize + ListEdit.commandStart (f.commands.toList.map Record.size) index))
              s.toBytes s'.toBytes
          ∨ ∃ e, result = .error e ∧ s'.toBytes = s.toBytes)
  duration : ∀ k duration, k < s.frameCount.toNat →
    ∃ results s', s.editFrame? k ⟨some duration, []⟩ = some (results, s')
      ∧ Bytes.DiffersWithin (frameStart (s.frames.map Frame.size) k) 2 s.toBytes s'.toBytes
  canvas : ∀ canvas, ∃ s', s.setCanvas canvas = .ok s'
    ∧ Bytes.DiffersWithin 2 4 s.toBytes s'.toBytes
  playCount : ∀ count, ∃ s', s.setPlayCount count = .ok s'
    ∧ Bytes.DiffersWithin 6 2 s.toBytes s'.toBytes

theorem length_before {header : Bytes} (hheader : header.length = headerSize)
    (hframes : List.Forall₂ IsFrame frames parts)
    (hhas : List.Forall₂ (fun commands f => f.Has commands) frames s.frames) (k : Nat) :
    (header ++ (parts.take k).flatten).length = frameStart (s.frames.map Frame.size) k := by
  rw [List.length_append, hheader, List.length_flatten, List.map_take,
    map_length_frames hframes hhas, frameStart]

theorem modify_around {header : Bytes} {k : Nat} (hk : k < parts.length) (f : Bytes → Bytes) :
    header ++ (parts.modify k f).flatten
      = header ++ (parts.take k).flatten ++ f parts[k] ++ (parts.drop (k + 1)).flatten := by
  rw [List.modify_eq_take_cons_drop hk, List.flatten_append, List.flatten_cons]
  simp only [List.append_assoc]

theorem isEditedInPlace (h : IsSequence frames s.toBytes) (hs : s.backing.isMapped = false) :
    s.IsEditedInPlace := by
  obtain ⟨hnumber, hhas, -⟩ := has_frames h
  obtain ⟨header, parts, hold, hheader, hframes, hedits⟩ := editFrame?_spec h hs
  have hcount : s.frameCount.toNat = parts.length := hnumber.trans hframes.length_eq
  refine ⟨?_, ?_, ?_, ?_, ?_⟩
  · refine ⟨header, parts, hold, hheader, ?_, fun k e hk => ?_⟩
    · rw [layouts_eq h]
      exact hframes
    · obtain ⟨shown, s', hedit, -, -, hbytes⟩ := hedits k (hcount ▸ hk) e
      exact ⟨_, s', hedit, hbytes⟩
  · intro k f hf index setting hindex
    obtain ⟨hk, rfl⟩ := List.getElem?_eq_some_iff.1 hf
    have hk' : k < frames.length := hhas.length_eq ▸ hk
    have hparts : k < parts.length := hframes.length_eq ▸ hk'
    have hcommands : Frame.Has s.frames[k] frames[k] := hhas.get hk' hk
    obtain ⟨result, after, new, happly, hone⟩ := FrameEdit.apply_one setting
      (hframes.get hk' hparts) (hcommands.has.count ▸ hindex)
    obtain ⟨shown, s', hedit, -, -, hnew⟩ := hedits k hparts ⟨none, [.one index [setting]]⟩
    rw [modify_around hparts] at hnew
    simp only [List.get_eq_getElem] at happly hone
    rw [happly] at hedit hnew
    refine ⟨result, after, shown, s', hedit, ?_⟩
    rw [hold, hnew, hcommands.has.sizes, ListEdit.flatten_around hparts, ← List.append_assoc,
      ← List.append_assoc, ← length_before hheader hframes hhas k]
    rcases hone with ⟨hok, hfield⟩ | ⟨e, herror, hsame⟩
    · exact Or.inl ⟨hok, hfield.append _ _⟩
    · exact Or.inr ⟨e, herror, by rw [hsame]⟩
  · intro k duration hk
    have hparts : k < parts.length := hcount ▸ hk
    have hk' : k < frames.length := hframes.length_eq ▸ hparts
    obtain ⟨shown, s', hedit, -, -, hnew⟩ := hedits k hparts ⟨some duration, []⟩
    refine ⟨_, s', hedit, ?_⟩
    have hwithin := (FrameEdit.apply_duration duration (hframes.get hk' hparts)).append
      (header ++ (parts.take k).flatten) (parts.drop (k + 1)).flatten
    rw [hold, hnew, modify_around hparts, ListEdit.flatten_around hparts, ← List.append_assoc,
      ← List.append_assoc, ← length_before hheader hframes hhas k]
    exact hwithin
  · intro canvas
    obtain ⟨s', hset, -, -, hwithin⟩ := setCanvas_spec h hs canvas
    exact ⟨s', hset, hwithin⟩
  · intro count
    obtain ⟨s', hset, -, -, hwithin⟩ := setPlayCount_spec h hs count
    exact ⟨s', hset, hwithin⟩

theorem run_spec (h : IsSequence frames s.toBytes) (a : SequenceAction) :
    IsSequence frames (a.run s).2.toBytes
      ∧ (a.run s).2.backing.isMapped = s.backing.isMapped := by
  cases a with
  | describe => exact ⟨h, rfl⟩
  | frame index => exact ⟨h, rfl⟩
  | elapsed times => exact ⟨h, rfl⟩
  | visit stop => exact ⟨h, rfl⟩
  | drawAt offset time => exact ⟨h, rfl⟩
  | drawFrame index request => exact ⟨h, rfl⟩
  | setCanvas canvas =>
    cases hs : s.backing.isMapped with
    | true =>
      have hset : s.setCanvas canvas = .error .badParameter := by
        rw [setCanvas, Backing.modify_mapped hs]
        rfl
      simp only [SequenceAction.run, hset]
      exact ⟨h, hs⟩
    | false =>
      obtain ⟨s', hset, hsequence, hmapped, -⟩ := setCanvas_spec h hs canvas
      simp only [SequenceAction.run, hset]
      exact ⟨hsequence, hmapped⟩
  | setPlayCount count =>
    cases hs : s.backing.isMapped with
    | true =>
      have hset : s.setPlayCount count = .error .badParameter := by
        rw [setPlayCount, Backing.modify_mapped hs]
        rfl
      simp only [SequenceAction.run, hset]
      exact ⟨h, hs⟩
    | false =>
      obtain ⟨s', hset, hsequence, hmapped, -⟩ := setPlayCount_spec h hs count
      simp only [SequenceAction.run, hset]
      exact ⟨hsequence, hmapped⟩
  | edit index change =>
    by_cases hclosed : s.frameCount.toNat ≤ index ∨ s.backing.isMapped = true
    · have hedit : s.editFrame? index change = none := if_pos hclosed
      simp only [SequenceAction.run, hedit]
      exact ⟨h, trivial⟩
    · rw [not_or] at hclosed
      obtain ⟨hindex, hs⟩ := hclosed
      have hs : s.backing.isMapped = false := Bool.eq_false_iff.2 hs
      obtain ⟨hnumber, -, -⟩ := has_frames h
      obtain ⟨header, parts, -, -, hframes, hedits⟩ := editFrame?_spec h hs
      have hindex' : index < parts.length := by
        rw [← hframes.length_eq, ← hnumber]
        exact Nat.lt_of_not_le hindex
      obtain ⟨shown, s', hedit, hsequence, hmapped, -⟩ := hedits index hindex' change
      simp only [SequenceAction.run, hedit]
      exact ⟨hsequence, hmapped.trans hs.symm⟩

theorem runAll_spec (h : IsSequence frames s.toBytes) (actions : List SequenceAction) :
    IsSequence frames (SequenceAction.runAll actions s).2.toBytes
      ∧ (SequenceAction.runAll actions s).2.backing.isMapped = s.backing.isMapped := by
  induction actions generalizing s with
  | nil => exact ⟨h, rfl⟩
  | cons a actions ih =>
    obtain ⟨hsequence, hmapped⟩ := run_spec h a
    obtain ⟨hsequence', hmapped'⟩ := ih hsequence
    exact ⟨hsequence', hmapped'.trans hmapped⟩

end Sequence

/-! ### Changes never break a container -/

/-- However images and sequences are changed in place, they stay valid and keep their layout. In one
that may be written to, a change reaches the records and the words that it is for: a setter that
takes effect writes its own field, and one that is refused writes nothing. -/
theorem changes_keep_layout :
    (∀ i : Image, Image.validate i.toBytes = .ok () → ∀ actions,
        let i' := (ImageAction.runAll actions i).2
        i.KeepsLayout i' ∧ (i.backing.isMapped = false → i'.IsEditedInPlace))
      ∧ (∀ s : Sequence, Sequence.validate s.toBytes = .ok () → ∀ actions,
        let s' := (SequenceAction.runAll actions s).2
        s.KeepsLayout s' ∧ (s.backing.isMapped = false → s'.IsEditedInPlace))
      ∧ (∀ commands frame, IsFrame commands frame → ∀ e : FrameEdit,
        ∃ count records, frame = frame.take 2 ++ count ++ List.flatten records ∧ count.length = 2
          ∧ List.Forall₂ IsRecord commands records ∧ (e.apply frame).2
            = e.durationBytes frame ++ count ++ (ListEdit.editRecords e.edits records).flatten)
      ∧ ∀ l record, IsRecord l record → ∀ s : Setting,
        (s.apply record).1 = .ok () ∧ s.ChangesField 0 record (s.apply record).2
          ∨ ∃ e, (s.apply record).1 = .error e ∧ (s.apply record).2 = record := by
  refine ⟨?_, ?_, ?_, ?_⟩
  · intro i hvalid actions
    obtain ⟨commands, h⟩ := Image.exists_isImage_of_validate hvalid
    obtain ⟨h', hmapped⟩ := Image.runAll_spec h actions
    exact ⟨Image.keepsLayout h h' hmapped, fun hi => Image.isEditedInPlace h' (hmapped.trans hi)⟩
  · intro s hvalid actions
    obtain ⟨frames, h⟩ := Sequence.exists_isSequence_of_validate hvalid
    obtain ⟨h', hmapped⟩ := Sequence.runAll_spec h actions
    exact ⟨Sequence.keepsLayout h h' hmapped,
      fun hs => Sequence.isEditedInPlace h' (hmapped.trans hs)⟩
  · intro commands frame h e
    exact e.apply_edits h
  · intro l record h s
    exact s.apply_cases h

/-- An image of one circle: the radius is set, and opening it is refused. -/
theorem changes_keep_layout_circle :
    let i : Image := ⟨.owned
      [1, 0, 50, 0, 40, 0, 1, 0, 2, 0, 0xC0, 1, 0xFF, 4, 0, 1, 0, 10, 0, 20, 0]⟩
    let i' := (ImageAction.runAll [.edit [.one 0 [.radius 7, .isOpen true]]] i).2
    Image.validate i.toBytes = .ok () ∧ i.KeepsLayout i' ∧ i'.IsEditedInPlace
      ∧ i'.toBytes = [1, 0, 50, 0, 40, 0, 1, 0, 2, 0, 0xC0, 1, 0xFF, 7, 0, 1, 0, 10, 0, 20, 0] := by
  intro i i'
  obtain ⟨hkeeps, hedited⟩ :=
    changes_keep_layout.1 i rfl [.edit [.one 0 [.radius 7, .isOpen true]]]
  exact ⟨rfl, hkeeps, hedited rfl, rfl⟩

end DialGraphics.Draw
