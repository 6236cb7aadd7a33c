import DialGraphics.Draw.Image
import DialGraphics.Draw.Sequence
import DialGraphics.Proofs.Draw.Layout

/-!
# Validated images and sequences

An image or a sequence is valid exactly if its bytes have a layout that ends at the last byte. The
views that do not check again then find everything that is declared, and end where the bytes end.
-/

namespace DialGraphics.Draw

/-- A version that is understood, a byte that means nothing, the canvas size, and a command list. -/
def IsImage (commands : List RecordLayout) (bytes : Bytes) : Prop :=
  ∃ version reserved w0 w1 h0 h1 list,
    bytes = version :: reserved :: w0 :: w1 :: h0 :: h1 :: list ∧ version ≤ 1
      ∧ IsCommandList commands list

/-- A version that is understood, a byte that means nothing, the canvas size, a play count, the
number of frames, and that many frames back to back. There is at least one. -/
def IsSequence (frames : List (List RecordLayout)) (bytes : Bytes) : Prop :=
  ∃ version reserved w0 w1 h0 h1 p0 p1 n0 n1 parts,
    bytes = version :: reserved :: w0 :: w1 :: h0 :: h1 :: p0 :: p1 :: n0 :: n1
        :: List.flatten parts
      ∧ version ≤ 1 ∧ n0.toNat + 256 * n1.toNat = frames.length ∧ 1 ≤ frames.length
      ∧ List.Forall₂ IsFrame frames parts

theorem readPrologue?_eq_some {bytes rest : Bytes} {version : UInt8} {canvas : Size}
    (h : readPrologue? bytes = some (version, canvas, rest)) :
    ∃ reserved w0 w1 h0 h1, bytes = version :: reserved :: w0 :: w1 :: h0 :: h1 :: rest
      ∧ version ≤ 1 := by
  unfold readPrologue? at h
  split at h
  · split at h
    · rename_i hversion
      cases h
      exact ⟨_, _, _, _, _, rfl, hversion⟩
    · cases h
  · cases h

/-! ### Images -/

namespace Image

variable {bytes : Bytes} {commands : List RecordLayout}

theorem validate_cases (bytes : Bytes) :
    validate bytes = .ok () ∨ validate bytes = .error .malformed := by
  unfold validate
  split
  · exact Or.inr rfl
  · split
    · exact Or.inl rfl
    · exact Or.inr rfl

theorem exists_isImage_of_validate (h : validate bytes = .ok ()) :
    ∃ commands, IsImage commands bytes := by
  unfold validate at h
  split at h
  · cases h
  · rename_i version canvas list hprologue
    obtain ⟨reserved, w0, w1, h0, h1, rfl, hversion⟩ := readPrologue?_eq_some hprologue
    split at h
    · rename_i hsize
      obtain ⟨commands, list', rest, hlist, rfl, hlength⟩ := exists_list_of_listSize? hsize
      -- the list takes up all bytes, so nothing is left behind it
      have hrest : rest = [] := by
        rw [List.length_append] at hlength
        exact List.eq_nil_of_length_eq_zero (by omega)
      subst hrest
      rw [List.append_nil]
      exact ⟨commands, version, reserved, w0, w1, h0, h1, list', rfl, hversion, hlist⟩
    · cases h

theorem validate_append (h : IsImage commands bytes) (more : Bytes) :
    validate (bytes ++ more) = if more = [] then .ok () else .error .malformed := by
  obtain ⟨version, reserved, w0, w1, h0, h1, list, rfl, hversion, hlist⟩ := h
  have hnewest : version ≤ newestVersion := hversion
  simp only [validate, List.cons_append, readPrologue?, hnewest, if_true,
    hlist.listSize?_append more, List.length_append, Option.some.injEq, Nat.left_eq_add,
    List.length_eq_zero_iff]

theorem validate_eq_ok_iff : validate bytes = .ok () ↔ ∃ commands, IsImage commands bytes := by
  constructor
  · exact exists_isImage_of_validate
  · rintro ⟨commands, h⟩
    rw [← List.append_nil bytes, validate_append h, if_pos rfl]

theorem validate_longer {more : Bytes} (h : validate bytes = .ok ()) (hmore : more ≠ []) :
    validate (bytes ++ more) = .error .malformed := by
  obtain ⟨commands, himage⟩ := exists_isImage_of_validate h
  rw [validate_append himage, if_neg hmore]

theorem has_commands {i : Image} (h : IsImage commands i.toBytes) :
    i.commands.Has commands ∧ prologueSize + i.commands.size = i.toBytes.length := by
  obtain ⟨version, reserved, w0, w1, h0, h1, list, hbytes, -, hlist⟩ := h
  have hdrop : i.toBytes.drop prologueSize = list := by
    rw [hbytes]
    rfl
  have hhas := hlist.has_ofChecked
  rw [Image.commands, hdrop, hbytes, hhas.size, ← hlist.length]
  refine ⟨hhas, ?_⟩
  simp only [prologueSize, List.length_cons]
  omega

end Image

/-! ### Sequences -/

section Frames

variable {frames : List (List RecordLayout)} {parts : List Bytes}

theorem framesFill_append (h : List.Forall₂ IsFrame frames parts) (rest : Bytes) :
    Sequence.framesFill frames.length (parts.flatten ++ rest) = rest.isEmpty := by
  induction h with
  | nil => rfl
  | cons hframe hframes ih =>
    rename_i commands frame frames parts
    simp only [List.flatten_cons, List.length_cons, List.append_assoc, Sequence.framesFill,
      hframe.frameSize?_append, List.drop_left, ih]

theorem exists_frames_of_framesFill {n : Nat} {bytes : Bytes}
    (h : Sequence.framesFill n bytes = true) :
    ∃ frames parts, frames.length = n ∧ List.Forall₂ IsFrame frames parts
      ∧ bytes = List.flatten parts := by
  induction n generalizing bytes with
  | zero => exact ⟨[], [], rfl, .nil, List.isEmpty_iff.1 h⟩
  | succ n ih =>
    simp only [Sequence.framesFill] at h
    split at h
    · cases h
    · rename_i size hsize
      obtain ⟨commands, frame, rest, hframe, rfl, rfl⟩ := exists_frame_of_frameSize? hsize
      rw [List.drop_left] at h
      obtain ⟨frames, parts, hn, hframes, rfl⟩ := ih h
      refine ⟨commands :: frames, frame :: parts, ?_, .cons hframe hframes, ?_⟩
      · rw [List.length_cons, hn]
      · rw [List.flatten_cons]

end Frames

namespace Sequence

variable {bytes : Bytes} {frames : List (List RecordLayout)}

theorem validate_cases (bytes : Bytes) :
    validate bytes = .ok () ∨ validate bytes = .error .malformed := by
  unfold validate
  split
  · simp only
    split
    · exact Or.inl rfl
    · exact Or.inr rfl
  · exact Or.inr rfl

theorem exists_isSequence_of_validate (h : validate bytes = .ok ()) :
    ∃ frames, IsSequence frames bytes := by
  unfold validate at h
  split at h
  · rename_i version canvas p0 p1 n0 n1 rest hprologue
    obtain ⟨reserved, w0, w1, h0, h1, rfl, hversion⟩ := readPrologue?_eq_some hprologue
    simp only at h
    split at h
    · rename_i hgood
      obtain ⟨hcount, hfill⟩ := hgood
      obtain ⟨frames, parts, hn, hframes, rfl⟩ := exists_frames_of_framesFill hfill
      have hpositive : (Bytes.word16 n0 n1).toNat ≠ 0 := fun hzero =>
        hcount (UInt16.toNat_inj.1 hzero)
      rw [toNat_word16] at hn hpositive
      exact ⟨frames, version, reserved, w0, w1, h0, h1, p0, p1, n0, n1, parts, rfl, hversion,
        hn.symm, by omega, hframes⟩
    · cases h
  · cases h

theorem validate_append (h : IsSequence frames bytes) (more : Bytes) :
    validate (bytes ++ more) = if more = [] then .ok () else .error .malformed := by
  obtain ⟨version, reserved, w0, w1, h0, h1, p0, p1, n0, n1, parts, rfl, hversion, hcount,
    hpositive, hframes⟩ := h
  have hnewest : version ≤ newestVersion := hversion
  have hword : (Bytes.word16 n0 n1).toNat = frames.length := (toNat_word16 n0 n1).trans hcount
  have hnonzero : Bytes.word16 n0 n1 ≠ 0 := by
    intro hzero
    rw [hzero] at hword
    change 0 = frames.length at hword
    omega
  simp only [validate, List.cons_append, readPrologue?, hnewest, if_true, hword,
    framesFill_append hframes more, ne_eq, hnonzero, not_false_eq_true, true_and,
    List.isEmpty_iff]

theorem validate_eq_ok_iff : validate bytes = .ok () ↔ ∃ frames, IsSequence frames bytes := by
  constructor
  · exact exists_isSequence_of_validate
  · rintro ⟨frames, h⟩
    rw [← List.append_nil bytes, validate_append h, if_pos rfl]

theorem validate_longer {more : Bytes} (h : validate bytes = .ok ()) (hmore : more ≠ []) :
    validate (bytes ++ more) = .error .malformed := by
  obtain ⟨frames, hsequence⟩ := exists_isSequence_of_validate h
  rw [validate_append hsequence, if_neg hmore]

theorem has_frames {s : Sequence} (h : IsSequence frames s.toBytes) :
    s.frameCount.toNat = frames.length
      ∧ List.Forall₂ (fun commands f => f.Has commands) frames s.frames
      ∧ headerSize + (s.frames.map Frame.size).sum = s.toBytes.length := by
  obtain ⟨version, reserved, w0, w1, h0, h1, p0, p1, n0, n1, parts, hbytes, -, hcount, -,
    hframes⟩ := h
  have hword : s.frameCount.toNat = frames.length := by
    rw [frameCount, headerWord, hbytes]
    exact (toNat_word16 n0 n1).trans hcount
  have hdrop : s.toBytes.drop headerSize = parts.flatten ++ [] := by
    rw [hbytes, List.append_nil]
    rfl
  have hhas : List.Forall₂ (fun commands f => f.Has commands) frames s.frames := by
    rw [Sequence.frames, hword, hdrop]
    exact walk_frames hframes []
  refine ⟨hword, hhas, ?_⟩
  rw [← map_length_frames hframes hhas, ← List.length_flatten, hbytes]
  simp only [headerSize, List.length_cons]
  omega

end Sequence

/-! ### What a valid container gives -/

/-- A walk along the commands of an image finds all that are declared, and they take up everything
behind the header of eight bytes. -/
structure Image.IsWalkable (i : Image) : Prop where
  count : i.commands.toList.length = i.commands.count.toNat
  sizes : 8 + (i.commands.toList.map Record.size).sum = i.toBytes.length

/-- A walk along the frames of a sequence finds all that are declared, and they take up everything
behind the header of ten bytes; and so it is for the commands of each frame. -/
structure Sequence.IsWalkable (s : Sequence) : Prop where
  count : s.frames.length = s.frameCount.toNat
  sizes : 10 + (s.frames.map Frame.size).sum = s.toBytes.length
  commandCount : ∀ f ∈ s.frames, f.commands.toList.length = f.commands.count.toNat
  commandSizes : ∀ f ∈ s.frames, 4 + (f.commands.toList.map Record.size).sum = f.size

theorem CommandList.Has.sum_sizes {l : CommandList} {commands : List RecordLayout}
    (h : l.Has commands) : countSize + (l.toList.map Record.size).sum = l.size := by
  rw [h.sizes, h.size]

theorem IsImage.isWalkable {i : Image} {commands : List RecordLayout}
    (h : IsImage commands i.toBytes) : i.IsWalkable := by
  obtain ⟨hhas, hsize⟩ := Image.has_commands h
  refine ⟨hhas.length_toList, ?_⟩
  rw [← hsize, ← hhas.sum_sizes]
  simp only [prologueSize, countSize]
  omega

theorem IsSequence.isWalkable {s : Sequence} {frames : List (List RecordLayout)}
    (h : IsSequence frames s.toBytes) : s.IsWalkable := by
  obtain ⟨hcount, hhas, hsizes⟩ := Sequence.has_frames h
  have hcommands : ∀ f ∈ s.frames, ∃ commands, f.commands.Has commands := by
    intro f hf
    obtain ⟨i, hi, rfl⟩ := List.getElem_of_mem hf
    exact ⟨_, (hhas.get (hhas.length_eq ▸ hi) hi).has⟩
  refine ⟨hhas.length_eq.symm.trans hcount.symm, hsizes, ?_, ?_⟩
  · intro f hf
    obtain ⟨commands, hf⟩ := hcommands f hf
    exact hf.length_toList
  · intro f hf
    obtain ⟨commands, hf⟩ := hcommands f hf
    rw [Frame.size, ← hf.sum_sizes]
    simp only [durationSize, countSize]
    omega

/-- Images and sequences are accepted exactly if they are of their format, and refused as malformed
otherwise. What is accepted can be walked from end to end without another check, and neither a piece
off its front nor anything longer is accepted. -/
theorem validate_exact_and_walkable (bytes : Bytes) :
    ((Image.validate bytes = .ok () ↔ ∃ commands, IsImage commands bytes)
        ∧ (Image.validate bytes ≠ .ok () → Image.validate bytes = .error .malformed)
        ∧ (Image.validate bytes = .ok () →
          (∀ i : Image, i.toBytes = bytes → i.IsWalkable)
            ∧ ∀ more, more ≠ [] → Image.validate (bytes ++ more) = .error .malformed
              ∧ ∀ front, bytes = front ++ more → Image.validate front = .error .malformed))
      ∧ (Sequence.validate bytes = .ok () ↔ ∃ frames, IsSequence frames bytes)
        ∧ (Sequence.validate bytes ≠ .ok () → Sequence.validate bytes = .error .malformed)
        ∧ (Sequence.validate bytes = .ok () →
          (∀ s : Sequence, s.toBytes = bytes → s.IsWalkable)
            ∧ ∀ more, more ≠ [] → Sequence.validate (bytes ++ more) = .error .malformed
              ∧ ∀ front, bytes = front ++ more →
                Sequence.validate front = .error .malformed) := by
  refine ⟨⟨Image.validate_eq_ok_iff, (Image.validate_cases bytes).resolve_left, ?_⟩,
    Sequence.validate_eq_ok_iff, (Sequence.validate_cases bytes).resolve_left, ?_⟩
  · intro hvalid
    obtain ⟨commands, h⟩ := Image.exists_isImage_of_validate hvalid
    refine ⟨?_, ?_⟩
    · rintro i rfl
      exact h.isWalkable
    · intro more hmore
      refine ⟨Image.validate_longer hvalid hmore, ?_⟩
      rintro front rfl
      -- a front that is accepted could not have become longer
      refine (Image.validate_cases front).resolve_left fun hfront => ?_
      cases hvalid.symm.trans (Image.validate_longer hfront hmore)
  · intro hvalid
    obtain ⟨frames, h⟩ := Sequence.exists_isSequence_of_validate hvalid
    refine ⟨?_, ?_⟩
    · rintro s rfl
      exact h.isWalkable
    · intro more hmore
      refine ⟨Sequence.validate_longer hvalid hmore, ?_⟩
      rintro front rfl
      refine (Sequence.validate_cases front).resolve_left fun hfront => ?_
      cases hvalid.symm.trans (Sequence.validate_longer hfront hmore)

end DialGraphics.Draw
