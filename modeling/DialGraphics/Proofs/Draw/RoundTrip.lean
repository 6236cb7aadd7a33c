import DialGraphics.Proofs.Draw.StoredBytes
import DialGraphics.Proofs.Draw.Validation

/-!
# Writing and reading back

What holds of the commands of a list holds one level up, of frames, and of whole images and
sequences. Nothing more gets lost there but the byte that means nothing.
-/

namespace DialGraphics.Draw

/-- Commands that a list can have. -/
def AreStorable (commands : List Command) : Prop :=
  commands.length ≤ 65535 ∧ ∀ c ∈ commands, c.shape.isStorable = true

/-! ### Frames -/

namespace Frame

def toBytesWith (change : Record → Record) (f : Frame) : Bytes :=
  Bytes.ofWord16 f.duration ++ f.commands.toBytesWith change

structure Holds (f : Frame) (duration : UInt16) (commands : List Command) : Prop where
  duration : f.duration = duration
  commands : f.commands.Holds commands

theorem read?_eq_some_iff {f : Frame} {bytes rest : Bytes} :
    read? bytes = some (f, rest)
      ↔ f.commands.IsWellFormed ∧ bytes = f.toBytesWith id ++ rest := by
  constructor
  · intro h
    unfold read? at h
    split at h
    · cases h
    · rename_i duration tail hword
      obtain ⟨⟨l, rest'⟩, hlist, hf⟩ := Option.map_eq_some_iff.1 h
      cases hf
      obtain ⟨hwell, rfl⟩ := CommandList.read?_eq_some_iff.1 hlist
      refine ⟨hwell, ?_⟩
      rw [toBytesWith, List.append_assoc]
      exact Bytes.eq_ofWord16_append_of_word16? hword
  · rintro ⟨hwell, rfl⟩
    simp only [read?, toBytesWith, List.append_assoc, Bytes.word16?_ofWord16_append,
      hwell.read?_append, Option.map_some]

theorem size_eq {f : Frame} (h : f.commands.IsWellFormed) : f.size = (f.toBytesWith id).length := by
  rw [size, h.size_eq, toBytesWith, List.length_append, Bytes.length_ofWord16]
  rfl

theorem frameSize?_append {f : Frame} (h : f.commands.IsWellFormed) (rest : Bytes) :
    frameSize? (f.toBytesWith id ++ rest) = some (f.toBytesWith id).length := by
  rw [← size_eq h, frameSize?, toBytesWith, List.append_assoc, Bytes.word16?_ofWord16_append]
  simp only [h.listSize?_append, Option.map_some, size]

theorem exists_of_frameSize? {bytes : Bytes} {size : Nat} (h : frameSize? bytes = some size) :
    ∃ (f : Frame) (rest : Bytes), f.commands.IsWellFormed ∧ bytes = f.toBytesWith id ++ rest
      ∧ bytes.drop size = rest := by
  unfold frameSize? at h
  split at h
  · cases h
  · rename_i duration tail hword
    obtain ⟨size', hsize', rfl⟩ := Option.map_eq_some_iff.1 h
    obtain ⟨l, rest, hwell, rfl, rfl⟩ := CommandList.exists_of_listSize? hsize'
    have hbytes : bytes = toBytesWith id ⟨duration, l⟩ ++ rest := by
      rw [toBytesWith, List.append_assoc]
      exact Bytes.eq_ofWord16_append_of_word16? hword
    refine ⟨⟨duration, l⟩, rest, hwell, hbytes, ?_⟩
    have hsize : durationSize + l.size = (toBytesWith id ⟨duration, l⟩).length :=
      size_eq (f := ⟨duration, l⟩) hwell
    rw [hbytes, hsize, List.drop_left]

theorem exists_of_encode (duration : UInt16) {commands : List Command}
    (h : AreStorable commands) :
    ∃ f : Frame, f.commands.IsWellFormed ∧ f.Holds duration commands
      ∧ f.toBytesWith id = encode duration commands := by
  obtain ⟨l, hwell, hholds, hbytes⟩ := CommandList.exists_of_encode h.1 h.2
  refine ⟨⟨duration, l⟩, hwell, ⟨rfl, hholds⟩, ?_⟩
  rw [toBytesWith, encode, hbytes]

theorem exists_commands {f : Frame} (h : f.commands.IsWellFormed) :
    ∃ commands, f.Holds f.duration commands
      ∧ encode f.duration commands = f.toBytesWith Record.cleared := by
  obtain ⟨commands, hholds, hencode⟩ := h.exists_commands
  refine ⟨commands, ⟨rfl, hholds⟩, ?_⟩
  rw [encode, hencode, toBytesWith]

theorem exists_of_encodeAll {frames : List (UInt16 × List Command)}
    (h : ∀ x ∈ frames, AreStorable x.2) :
    ∃ stored : List Frame, (∀ f ∈ stored, f.commands.IsWellFormed)
      ∧ List.Forall₂ (fun f x => f.Holds x.1 x.2) stored frames
      ∧ stored.map (toBytesWith id) = frames.map fun x => encode x.1 x.2 := by
  induction frames with
  | nil => exact ⟨[], fun f hf => absurd hf List.not_mem_nil, .nil, rfl⟩
  | cons x frames ih =>
    obtain ⟨f, hwell, hholds, hbytes⟩ := exists_of_encode x.1 (h x List.mem_cons_self)
    obtain ⟨stored, hwells, hall, hencodes⟩ := ih fun y hy => h y (List.mem_cons_of_mem x hy)
    refine ⟨f :: stored, List.forall_mem_cons.2 ⟨hwell, hwells⟩, .cons hholds hall, ?_⟩
    rw [List.map_cons, List.map_cons, hbytes, hencodes]

theorem exists_allCommands {stored : List Frame}
    (h : ∀ f ∈ stored, f.commands.IsWellFormed) :
    ∃ frames : List (UInt16 × List Command),
      List.Forall₂ (fun f x => f.Holds x.1 x.2) stored frames
        ∧ (frames.map fun x => encode x.1 x.2) = stored.map (toBytesWith Record.cleared) := by
  induction stored with
  | nil => exact ⟨[], .nil, rfl⟩
  | cons f stored ih =>
    obtain ⟨commands, hholds, hencode⟩ := exists_commands (h f List.mem_cons_self)
    obtain ⟨frames, hall, hencodes⟩ := ih fun g hg => h g (List.mem_cons_of_mem f hg)
    refine ⟨(f.duration, commands) :: frames, .cons hholds hall, ?_⟩
    rw [List.map_cons, List.map_cons, hencode, hencodes]

theorem walk_toBytes {frames : List Frame} (h : ∀ f ∈ frames, f.commands.IsWellFormed) :
    walk frames.length (frames.map (toBytesWith id)).flatten = frames := by
  induction frames with
  | nil => rfl
  | cons f frames ih =>
    have hframe : read? (f.toBytesWith id ++ (frames.map (toBytesWith id)).flatten)
        = some (f, (frames.map (toBytesWith id)).flatten) :=
      read?_eq_some_iff.2 ⟨h f List.mem_cons_self, rfl⟩
    have hframes := ih fun g hg => h g (List.mem_cons_of_mem f hg)
    simp only [List.map_cons, List.flatten_cons, List.length_cons, walk, hframe, hframes]

theorem framesFill_toBytes {frames : List Frame} (h : ∀ f ∈ frames, f.commands.IsWellFormed) :
    Sequence.framesFill frames.length (frames.map (toBytesWith id)).flatten = true := by
  induction frames with
  | nil => rfl
  | cons f frames ih =>
    have hframes := ih fun g hg => h g (List.mem_cons_of_mem f hg)
    simp only [List.map_cons, List.flatten_cons, List.length_cons, Sequence.framesFill,
      frameSize?_append (h f List.mem_cons_self), List.drop_left, hframes]

theorem exists_of_framesFill {n : Nat} {bytes : Bytes}
    (h : Sequence.framesFill n bytes = true) :
    ∃ frames : List Frame, frames.length = n ∧ (∀ f ∈ frames, f.commands.IsWellFormed)
      ∧ bytes = (frames.map (toBytesWith id)).flatten := by
  induction n generalizing bytes with
  | zero => exact ⟨[], rfl, fun f hf => absurd hf List.not_mem_nil, List.isEmpty_iff.1 h⟩
  | succ n ih =>
    simp only [Sequence.framesFill] at h
    split at h
    · cases h
    · rename_i size hsize
      obtain ⟨f, rest, hwell, rfl, hdrop⟩ := exists_of_frameSize? hsize
      rw [hdrop] at h
      obtain ⟨frames, hn, hframes, rfl⟩ := ih h
      refine ⟨f :: frames, ?_, List.forall_mem_cons.2 ⟨hwell, hframes⟩, ?_⟩
      · rw [List.length_cons, hn]
      · rw [List.map_cons, List.flatten_cons]

end Frame

/-! ### Images -/

theorem readPrologue?_encodePrologue {version : UInt8} (hversion : version ≤ 1) (canvas : Size)
    (reserved : UInt8) (rest : Bytes) :
    readPrologue? ([version, reserved] ++ encodePair canvas.w canvas.h ++ rest)
      = some (version, canvas, rest) := by
  have hnewest : version ≤ newestVersion := hversion
  simp only [encodePair, Bytes.ofWord16, List.cons_append, List.nil_append, readPrologue?, hnewest,
    if_true, Bytes.word16_ofWord16, Int16.toInt16_toUInt16]

theorem eq_append_of_readPrologue? {bytes rest : Bytes} {version : UInt8} {canvas : Size}
    (h : readPrologue? bytes = some (version, canvas, rest)) :
    version ≤ 1 ∧ ∃ reserved,
      bytes = [version, reserved] ++ encodePair canvas.w canvas.h ++ rest := by
  obtain ⟨reserved, w0, w1, h0, h1, rfl, hversion⟩ := readPrologue?_eq_some h
  have hnewest : version ≤ newestVersion := hversion
  simp only [readPrologue?, hnewest, if_true, Option.some.injEq, Prod.mk.injEq, true_and,
    and_true] at h
  refine ⟨hversion, reserved, ?_⟩
  rw [← h, encodePair_word16]
  rfl

/-- What the header in front of some bytes says, with the byte that means nothing. -/
structure Backing.Opens (b : Backing) (version reserved : UInt8) (canvas : Size) (rest : Bytes) :
    Prop where
  version_eq : b.version = version
  canvas_eq : b.canvas = canvas
  toBytes_eq : b.toBytes = [version, reserved] ++ encodePair canvas.w canvas.h ++ rest

theorem Backing.opens_of_toBytes {b : Backing} {version reserved : UInt8} {canvas : Size}
    {rest : Bytes} (hversion : version ≤ 1)
    (h : b.toBytes = [version, reserved] ++ encodePair canvas.w canvas.h ++ rest) :
    b.Opens version reserved canvas rest where
  version_eq := by
    rw [Backing.version, h]
    rfl
  canvas_eq := by
    rw [Backing.canvas, h, readPrologue?_encodePrologue hversion]
  toBytes_eq := h

theorem Backing.Opens.drop_prologueSize {b : Backing} {version reserved : UInt8} {canvas : Size}
    {rest : Bytes} (h : b.Opens version reserved canvas rest) :
    b.toBytes.drop prologueSize = rest := by
  rw [h.toBytes_eq]
  rfl

namespace Image

variable {bytes : Bytes} {i : Image}

theorem ofBytes_of_opens {version reserved : UInt8} {canvas : Size} {l : CommandList}
    (hversion : version ≤ 1) (hl : l.IsWellFormed)
    (hbytes : bytes = [version, reserved] ++ encodePair canvas.w canvas.h ++ l.toBytesWith id) :
    ofBytes bytes = .ok ⟨.owned bytes⟩ ∧ (⟨.owned bytes⟩ : Image).commands = l
      ∧ (Backing.owned bytes).Opens version reserved canvas (l.toBytesWith id) := by
  have hopens := Backing.opens_of_toBytes (b := .owned bytes) hversion hbytes
  have hsize := hl.listSize?_append []
  rw [List.append_nil, hl.size_eq] at hsize
  refine ⟨?_, ?_, hopens⟩
  · have hprologue := readPrologue?_encodePrologue hversion canvas reserved (l.toBytesWith id)
    rw [← hbytes] at hprologue
    simp only [ofBytes, validate, hprologue, hsize, if_true]
    rfl
  · rw [Image.commands, Image.toBytes, hopens.drop_prologueSize, hl.ofChecked_toBytes]

theorem opens_of_ofBytes (h : ofBytes bytes = .ok i) :
    i.toBytes = bytes ∧ i.commands.IsWellFormed ∧ ∃ version reserved canvas,
      i.backing.Opens version reserved canvas (i.commands.toBytesWith id) := by
  obtain ⟨_, hvalid, rfl⟩ := map_eq_ok_iff.1 h
  unfold validate at hvalid
  split at hvalid
  · cases hvalid
  · rename_i version canvas list hprologue
    obtain ⟨hversion, reserved, hbytes⟩ := eq_append_of_readPrologue? hprologue
    split at hvalid
    · rename_i hsize
      obtain ⟨l, rest, hwell, rfl, hlength⟩ := CommandList.exists_of_listSize? hsize
      -- the list takes up all bytes, so nothing is left behind it
      have hrest : rest = [] := by
        rw [List.length_append, hwell.size_eq] at hlength
        exact List.eq_nil_of_length_eq_zero (by omega)
      rw [hrest, List.append_nil] at hbytes
      obtain ⟨-, hcommands, hopens⟩ := ofBytes_of_opens hversion hwell hbytes
      refine ⟨rfl, ?_, version, reserved, canvas, ?_⟩
      · rwa [hcommands]
      · rwa [hcommands]
    · cases hvalid

theorem exists_ofBytes_encode {version : UInt8} (hversion : version ≤ 1) (canvas : Size)
    {commands : List Command} (h : AreStorable commands) :
    ∃ i, ofBytes (encode version canvas commands) = .ok i ∧ i.backing.version = version
      ∧ i.backing.canvas = canvas ∧ i.commands.Holds commands := by
  obtain ⟨l, hwell, hholds, hbytes⟩ := CommandList.exists_of_encode h.1 h.2
  have hencode : encode version canvas commands
      = [version, 0] ++ encodePair canvas.w canvas.h ++ l.toBytesWith id := by
    rw [hbytes]
    rfl
  obtain ⟨hok, hcommands, hopens⟩ := ofBytes_of_opens hversion hwell hencode
  refine ⟨_, hok, hopens.version_eq, hopens.canvas_eq, ?_⟩
  rwa [hcommands]

theorem exists_encode_of_ofBytes (h : ofBytes bytes = .ok i) :
    ∃ version reserved canvas commands,
      i.backing.version = version ∧ i.backing.canvas = canvas ∧ i.commands.Holds commands
        ∧ bytes = [version, reserved] ++ encodePair canvas.w canvas.h ++ i.commands.toBytesWith id
        ∧ encode version canvas commands = [version, 0] ++ encodePair canvas.w canvas.h
          ++ i.commands.toBytesWith Record.cleared := by
  obtain ⟨hbytes, hwell, version, reserved, canvas, hopens⟩ := opens_of_ofBytes h
  obtain ⟨commands, hholds, hencode⟩ := hwell.exists_commands
  refine ⟨version, reserved, canvas, commands, hopens.version_eq, hopens.canvas_eq, hholds,
    hbytes.symm.trans hopens.toBytes_eq, ?_⟩
  rw [encode, hencode]
  rfl

end Image

/-! ### Sequences -/

namespace Sequence

/-- The bytes of a sequence behind its header, with the records changed before they are written. -/
def bodyWith (change : Record → Record) (s : Sequence) : Bytes :=
  Bytes.ofWord16 s.playCount ++ Bytes.ofWord16 s.frameCount
    ++ (s.frames.map (Frame.toBytesWith change)).flatten

variable {bytes : Bytes} {s : Sequence}

theorem headerWord_of_drop {pos : Nat} {v : UInt16} {rest : Bytes}
    (h : s.toBytes.drop pos = Bytes.ofWord16 v ++ rest) : s.headerWord pos = v := by
  rw [headerWord, h, Bytes.word16?_ofWord16_append]

theorem ofBytes_of_opens {version reserved : UInt8} {canvas : Size} {plays count : UInt16}
    {frames : List Frame} (hversion : version ≤ 1) (hcount : count.toNat = frames.length)
    (hpositive : frames ≠ []) (hwell : ∀ f ∈ frames, f.commands.IsWellFormed)
    (hbytes : bytes = [version, reserved] ++ encodePair canvas.w canvas.h
      ++ (Bytes.ofWord16 plays ++ Bytes.ofWord16 count
        ++ (frames.map (Frame.toBytesWith id)).flatten)) :
    let s : Sequence := ⟨.owned bytes⟩
    ofBytes bytes = .ok s ∧ s.frames = frames ∧ s.playCount = plays ∧ s.frameCount = count
      ∧ s.backing.Opens version reserved canvas (s.bodyWith id) := by
  intro s
  have hopens := Backing.opens_of_toBytes (b := .owned bytes) hversion hbytes
  have hplays : s.playCount = plays :=
    headerWord_of_drop (congrArg (List.drop playCountOffset) hbytes)
  have hframeCount : s.frameCount = count :=
    headerWord_of_drop (congrArg (List.drop frameCountOffset) hbytes)
  have hframes : s.frames = frames := by
    rw [Sequence.frames, hframeCount, hcount]
    show Frame.walk frames.length (bytes.drop headerSize) = frames
    rw [hbytes]
    exact Frame.walk_toBytes hwell
  refine ⟨?_, hframes, hplays, hframeCount, ?_⟩
  · have hprologue := readPrologue?_encodePrologue hversion canvas reserved
      (Bytes.ofWord16 plays ++ Bytes.ofWord16 count
        ++ (frames.map (Frame.toBytesWith id)).flatten)
    have hfill := Frame.framesFill_toBytes hwell
    have hnonzero : count ≠ 0 := by
      rintro rfl
      exact hpositive (List.eq_nil_of_length_eq_zero hcount.symm)
    rw [← hbytes] at hprologue
    rw [← hcount] at hfill
    simp only [Bytes.ofWord16, List.cons_append, List.nil_append] at hprologue
    simp only [ofBytes, validate, hprologue, Bytes.word16_ofWord16, hfill, ne_eq, hnonzero,
      not_false_eq_true, and_self, if_true]
    rfl
  · rw [bodyWith, hplays, hframeCount, hframes]
    exact hopens

theorem opens_of_ofBytes (h : ofBytes bytes = .ok s) :
    s.toBytes = bytes ∧ (∀ f ∈ s.frames, f.commands.IsWellFormed)
      ∧ s.frameCount.toNat = s.frames.length
      ∧ ∃ version reserved canvas, s.backing.Opens version reserved canvas (s.bodyWith id) := by
  obtain ⟨_, hvalid, rfl⟩ := map_eq_ok_iff.1 h
  unfold validate at hvalid
  split at hvalid
  · rename_i version canvas p0 p1 n0 n1 rest hprologue
    obtain ⟨hversion, reserved, hbytes⟩ := eq_append_of_readPrologue? hprologue
    simp only at hvalid
    split at hvalid
    · rename_i hgood
      obtain ⟨hnonzero, hfill⟩ := hgood
      obtain ⟨frames, hcount, hwell, rfl⟩ := Frame.exists_of_framesFill hfill
      have hpositive : frames ≠ [] := by
        rintro rfl
        exact hnonzero (UInt16.toNat_inj.1 hcount.symm)
      have hwords : p0 :: p1 :: n0 :: n1 :: (frames.map (Frame.toBytesWith id)).flatten
          = Bytes.ofWord16 (Bytes.word16 p0 p1) ++ Bytes.ofWord16 (Bytes.word16 n0 n1)
            ++ (frames.map (Frame.toBytesWith id)).flatten := by
        rw [Bytes.ofWord16_word16, Bytes.ofWord16_word16]
        rfl
      rw [hwords] at hbytes
      obtain ⟨-, hframes, -, hframeCount, hopens⟩ :=
        ofBytes_of_opens hversion hcount.symm hpositive hwell hbytes
      refine ⟨rfl, ?_, ?_, version, reserved, canvas, hopens⟩
      · rwa [hframes]
      · rw [hframes, hframeCount, hcount]
    · cases hvalid
  · cases hvalid

theorem exists_ofBytes_encode {version : UInt8} (hversion : version ≤ 1) (canvas : Size)
    (plays : UInt16) {frames : List (UInt16 × List Command)} (hpositive : 1 ≤ frames.length)
    (hlength : frames.length ≤ 65535) (h : ∀ x ∈ frames, AreStorable x.2) :
    ∃ s, ofBytes (encode version canvas plays frames) = .ok s
      ∧ s.backing.version = version ∧ s.backing.canvas = canvas ∧ s.playCount = plays
      ∧ List.Forall₂ (fun f x => f.Holds x.1 x.2) s.frames frames := by
  obtain ⟨stored, hwell, hholds, hencodes⟩ := Frame.exists_of_encodeAll h
  have hsame := hholds.length_eq
  have hcount : (UInt16.ofNat frames.length).toNat = stored.length := by
    rw [hsame, UInt16.toNat_ofNat', Nat.mod_eq_of_lt (by omega)]
  have hne : stored ≠ [] := by
    rintro rfl
    exact absurd hsame (Nat.ne_of_lt hpositive)
  have hencode : encode version canvas plays frames
      = [version, 0] ++ encodePair canvas.w canvas.h
        ++ (Bytes.ofWord16 plays ++ Bytes.ofWord16 (UInt16.ofNat frames.length)
          ++ (stored.map (Frame.toBytesWith id)).flatten) := by
    rw [hencodes, encode, encodePrologue]
    simp only [List.append_assoc]
  obtain ⟨hok, hframes, hplays, -, hopens⟩ := ofBytes_of_opens hversion hcount hne hwell hencode
  refine ⟨_, hok, hopens.version_eq, hopens.canvas_eq, hplays, ?_⟩
  rwa [hframes]

theorem exists_encode_of_ofBytes (h : ofBytes bytes = .ok s) :
    ∃ version reserved canvas frames,
      s.backing.version = version ∧ s.backing.canvas = canvas
        ∧ List.Forall₂ (fun f x => f.Holds x.1 x.2) s.frames frames
        ∧ bytes = [version, reserved] ++ encodePair canvas.w canvas.h ++ s.bodyWith id
        ∧ encode version canvas s.playCount frames
          = [version, 0] ++ encodePair canvas.w canvas.h ++ s.bodyWith Record.cleared := by
  obtain ⟨hbytes, hwell, hcount, version, reserved, canvas, hopens⟩ := opens_of_ofBytes h
  obtain ⟨frames, hholds, hencodes⟩ := Frame.exists_allCommands hwell
  refine ⟨version, reserved, canvas, frames, hopens.version_eq, hopens.canvas_eq, hholds,
    hbytes.symm.trans hopens.toBytes_eq, ?_⟩
  rw [encode, bodyWith, hencodes, encodePrologue, ← hholds.length_eq, ← hcount,
    UInt16.ofNat_toNat]
  simp only [List.append_assoc]

end Sequence

/-! ### Both ways -/

/-- Commands that are written are read as they were: a list or a frame with anything behind it, and
whole images and sequences. What is read, and written again, is as it was but for the bits of a
record that mean nothing, and the reserved byte. -/
theorem round_trip :
    (∀ commands suffix, AreStorable commands → ∃ l,
      CommandList.read? (CommandList.encode commands ++ suffix) = some (l, suffix)
        ∧ l.size = (CommandList.encode commands).length ∧ l.Holds commands)
      ∧ (∀ bytes l rest, CommandList.read? bytes = some (l, rest) →
        bytes = l.toBytesWith id ++ rest ∧ ∃ commands, l.Holds commands
          ∧ CommandList.encode commands = l.toBytesWith Record.cleared)
      ∧ (∀ duration commands suffix, AreStorable commands → ∃ f,
        Frame.read? (Frame.encode duration commands ++ suffix) = some (f, suffix)
          ∧ f.size = (Frame.encode duration commands).length ∧ f.Holds duration commands)
      ∧ (∀ bytes f rest, Frame.read? bytes = some (f, rest) →
        bytes = f.toBytesWith id ++ rest ∧ ∃ commands, f.Holds f.duration commands
          ∧ Frame.encode f.duration commands = f.toBytesWith Record.cleared)
      ∧ (∀ version canvas commands, version ≤ 1 → AreStorable commands → ∃ i,
        Image.ofBytes (Image.encode version canvas commands) = .ok i
          ∧ i.backing.version = version ∧ i.backing.canvas = canvas
          ∧ i.commands.Holds commands)
      ∧ (∀ bytes i, Image.ofBytes bytes = .ok i → ∃ version reserved canvas commands,
        i.backing.version = version ∧ i.backing.canvas = canvas ∧ i.commands.Holds commands
          ∧ bytes = [version, reserved] ++ encodePair canvas.w canvas.h
            ++ i.commands.toBytesWith id
          ∧ Image.encode version canvas commands = [version, 0] ++ encodePair canvas.w canvas.h
            ++ i.commands.toBytesWith Record.cleared)
      ∧ (∀ version canvas plays (frames : List (UInt16 × List Command)), version ≤ 1 →
        1 ≤ frames.length → frames.length ≤ 65535 → (∀ x ∈ frames, AreStorable x.2) → ∃ s,
        Sequence.ofBytes (Sequence.encode version canvas plays frames) = .ok s
          ∧ s.backing.version = version ∧ s.backing.canvas = canvas ∧ s.playCount = plays
          ∧ List.Forall₂ (fun f x => f.Holds x.1 x.2) s.frames frames)
      ∧ ∀ bytes s, Sequence.ofBytes bytes = .ok s → ∃ version reserved canvas frames,
        s.backing.version = version ∧ s.backing.canvas = canvas
          ∧ List.Forall₂ (fun f x => f.Holds x.1 x.2) s.frames frames
          ∧ bytes = [version, reserved] ++ encodePair canvas.w canvas.h ++ s.bodyWith id
          ∧ Sequence.encode version canvas s.playCount frames
            = [version, 0] ++ encodePair canvas.w canvas.h ++ s.bodyWith Record.cleared := by
  refine ⟨?_, ?_, ?_, ?_, ?_, ?_, ?_, ?_⟩
  · rintro commands suffix ⟨hlength, hstorable⟩
    obtain ⟨l, hwell, hholds, hbytes⟩ := CommandList.exists_of_encode hlength hstorable
    rw [← hbytes]
    exact ⟨l, hwell.read?_append suffix, hwell.size_eq, hholds⟩
  · intro bytes l rest hread
    obtain ⟨hwell, hbytes⟩ := CommandList.read?_eq_some_iff.1 hread
    exact ⟨hbytes, hwell.exists_commands⟩
  · intro duration commands suffix hcommands
    obtain ⟨f, hwell, hholds, hbytes⟩ := Frame.exists_of_encode duration hcommands
    rw [← hbytes]
    exact ⟨f, Frame.read?_eq_some_iff.2 ⟨hwell, rfl⟩, Frame.size_eq hwell, hholds⟩
  · intro bytes f rest hread
    obtain ⟨hwell, hbytes⟩ := Frame.read?_eq_some_iff.1 hread
    exact ⟨hbytes, Frame.exists_commands hwell⟩
  · intro version canvas commands hversion hcommands
    exact Image.exists_ofBytes_encode hversion canvas hcommands
  · intro bytes i hok
    exact Image.exists_encode_of_ofBytes hok
  · intro version canvas plays frames hversion hpositive hlength hframes
    exact Sequence.exists_ofBytes_encode hversion canvas plays hpositive hlength hframes
  · intro bytes s hok
    exact Sequence.exists_encode_of_ofBytes hok

/-- One open path, with every bit set that means nothing, and a byte behind it. -/
def spareBits : Bytes :=
  [1, 0, 1, 0xFE, 0xC0, 1, 0xF0, 0xFF, 0xFF, 2, 0, 0, 0, 0, 0, 5, 0, 5, 0, 9]

theorem round_trip_spareBits :
    ∃ l commands, CommandList.read? spareBits = some (l, [9]) ∧ l.Holds commands
      ∧ CommandList.encode commands
        = [1, 0, 1, 0, 0xC0, 1, 0xF0, 1, 0, 2, 0, 0, 0, 0, 0, 5, 0, 5, 0] := by
  have hread : CommandList.read? spareBits = some (⟨1, (spareBits.take 19).drop 2⟩, [9]) := by
    decide
  obtain ⟨-, hback, -⟩ := round_trip
  obtain ⟨-, commands, hholds, hencode⟩ := hback spareBits _ [9] hread
  exact ⟨_, commands, hread, hholds, hencode⟩

end DialGraphics.Draw
