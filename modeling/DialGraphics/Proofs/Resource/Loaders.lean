import DialGraphics.Proofs.Bitmap.Acceptance
import DialGraphics.Proofs.Draw.RoundTrip
import DialGraphics.Proofs.Resource.ZeroCopy

/-!
# What the loaders take

A PNG and a draw command file are known by a signature. A raw bitmap has none: what is no PNG is a
raw bitmap if it has the header and the length of one. So is a draw command file of the right
length. Its tag then stands for a row size, and for the format of one byte a pixel.
-/

namespace DialGraphics

theorem exists_map_eq_ok_iff {ε α β : Type} {f : α → β} {x : Except ε α} :
    (∃ b, x.map f = .ok b) ↔ ∃ a, x = .ok a := by
  cases x with
  | error e => exact ⟨nofun, nofun⟩
  | ok a => exact ⟨fun _ => ⟨a, rfl⟩, fun _ => ⟨f a, rfl⟩⟩

namespace ResourceMap

variable {m : ResourceMap} {key : ResourceKey} {bytes : Bytes} {pad : Bool} {r : ResourceBytes}

theorem ne_nil_of_load (hstore : m.store.Describes key bytes) (h : (m.load key pad).1 = .ok r) :
    bytes ≠ [] := by
  rintro rfl
  have hsize : m.store.size key = 0 := hstore.size
  rw [load, if_pos hsize] at h
  cases h

theorem toBytes_of_load (hstore : m.store.Describes key bytes) (h : (m.load key pad).1 = .ok r) :
    r.toBytes = bytes := by
  have hbytes := ne_nil_of_load hstore h
  by_cases hmapped : m.mappable? key = none
  · rcases load_copied hbytes hstore hmapped pad with ⟨copy, hcopy, hsame⟩ | ⟨-, hfailed⟩
    · cases hcopy.symm.trans h
      exact hsame
    · cases hfailed.symm.trans h
  · cases (load_inPlace hbytes hstore hmapped pad).symm.trans h
    rfl

theorem exists_load (hbytes : bytes ≠ []) (pad : Bool) :
    ∃ (m : ResourceMap) (key : ResourceKey), m.store.Describes key bytes
      ∧ ∃ r, (m.load key pad).1 = .ok r := by
  let m : ResourceMap := { store := Store.ofCatalog [⟨⟨0, 0⟩, bytes, true, bytes.length, 0⟩] }
  have hstore : m.store.Describes ⟨0, 0⟩ bytes := Store.describes_ofCatalog ..
  have hmapped : m.mappable? ⟨0, 0⟩ ≠ none := by
    rw [show m.mappable? ⟨0, 0⟩ = some bytes from rfl]
    exact Option.some_ne_none _
  exact ⟨m, ⟨0, 0⟩, hstore, _, load_inPlace hbytes hstore hmapped pad⟩

/-- Whether something is made from a loaded resource is a question about its bytes. -/
theorem exists_load_bind_iff {α : Type} {make : ResourceBytes → Except DecodeError α} {P : Prop}
    (hstore : m.store.Describes key bytes)
    (hmake : ∀ r, r.toBytes = bytes → ((∃ a, make r = .ok a) ↔ P)) :
    (∃ a, (m.load key pad).1.bind make = .ok a) ↔ (∃ r, (m.load key pad).1 = .ok r) ∧ P := by
  cases hload : (m.load key pad).1 with
  | error e =>
    constructor
    · rintro ⟨a, h⟩
      cases h
    · rintro ⟨⟨r, h⟩, -⟩
      cases h
  | ok r =>
    rw [and_iff_right ⟨r, rfl⟩]
    exact hmake r (toBytes_of_load hstore hload)

end ResourceMap

/-! ### Formats with a tag -/

namespace ImageFormat

variable {format : ImageFormat} {tag : Tag} {bytes : Bytes}

def tag? : ImageFormat → Option Tag
  | .drawImage => some Tag.drawImage
  | .drawSequence => some Tag.drawSequence
  | .png | .rawBitmap => none

theorem isPng_of_tag? (h : format.tag? = some tag) (rest : Bytes) :
    isPng (tag.toBytes ++ rest) = false := by
  cases format <;> cases h <;> rfl

theorem sniff_toBytes_append (h : format.tag? = some tag) (rest : Bytes) :
    sniff (tag.toBytes ++ rest) = format := by
  rw [sniff, isPng_of_tag? h]
  cases format <;> cases h <;> rfl

theorem eq_append_of_sniff (h : format.tag? = some tag) (hsniff : sniff bytes = format) :
    ∃ rest, bytes = tag.toBytes ++ rest := by
  rw [← hsniff] at h
  unfold sniff at h
  split at h
  · cases h
  · split at h
    · rename_i found rest hread
      refine ⟨rest, ?_⟩
      rw [Tag.eq_toBytes_append_of_read? hread]
      split at h
      · rename_i himage
        cases h
        rw [himage]
      · split at h
        · rename_i hsequence
          cases h
          rw [hsequence]
        · cases h
    · cases h

/-- Read as words, both tags are the same row size, with the number of the same format behind it. -/
theorem words_of_tag? (h : format.tag? = some tag) (rest : Bytes) :
    (Bytes.wordAt (tag.toBytes ++ rest) 0).toNat = 17488
      ∧ (Bytes.wordAt (tag.toBytes ++ rest) 2).toNat / 2 % 8 = PixelFormat.color.number := by
  have hwords : Bytes.wordAt (tag.toBytes ++ rest) 0 = Bytes.word16 tag.b0 tag.b1
      ∧ Bytes.wordAt (tag.toBytes ++ rest) 2 = Bytes.word16 tag.b2 tag.b3 := ⟨rfl, rfl⟩
  rw [hwords.1, hwords.2]
  cases format <;> cases h <;> decide

end ImageFormat

/-! ### Bitmaps -/

/-- A header of a bitmap that takes up all bytes. -/
structure RawLayout.Fills (bytes : Bytes) (platform : Platform) (format : PixelFormat) : Prop
    extends HasHeader bytes platform format where
  length_eq : bytes.length = 12 + storedLength format (bytes.wordAt 0).toNat
    (bytes.wordAt 8).toNat (bytes.wordAt 10).toNat + format.paletteSize

namespace Bitmap

open RawLayout (ofHeader)

variable {m : ResourceMap} {key : ResourceKey} {bytes : Bytes} {platform : Platform}

theorem exists_ofRawResource_iff {r : ResourceBytes} :
    (∃ b, ofRawResource r platform = .ok b)
      ↔ ∃ format, RawLayout.Fills r.toBytes platform format := by
  rw [ofRawResource_eq]
  constructor
  · rintro ⟨b, h⟩
    obtain ⟨l, hl, h⟩ := bind_eq_ok_iff.1 h
    obtain ⟨format, hheader, rfl⟩ := RawLayout.parse_eq_ok_iff.1 hl
    split at h
    · rename_i hlength
      exact ⟨format, hheader, hlength.symm⟩
    · cases h
  · rintro ⟨format, h⟩
    have hparse := RawLayout.parse_eq_ok_iff.2 ⟨format, h.toHasHeader, rfl⟩
    obtain ⟨b, hb⟩ := exists_ofLayout h.toHasHeader (.resource (pixelsOfRaw r))
    have hlength : (ofHeader r.toBytes format).totalLength = r.toBytes.length :=
      h.length_eq.symm
    refine ⟨b, ?_⟩
    rw [hparse, Except.bind, if_pos hlength, hb]

theorem exists_ofResource_iff (hstore : m.store.Describes key bytes) :
    (∃ b, (ofResource m key platform).1 = .ok b)
      ↔ (∃ r, (m.load key true).1 = .ok r)
        ∧ if isPng bytes then ∃ b, ofPng bytes platform = .ok b
          else ∃ format, RawLayout.Fills bytes platform format := by
  rw [ofResource_eq]
  refine ResourceMap.exists_load_bind_iff hstore ?_
  rintro r rfl
  by_cases hpng : isPng r.toBytes = true
  · rw [if_pos hpng, if_pos hpng]
  · rw [if_neg hpng, if_neg hpng]
    exact exists_ofRawResource_iff

end Bitmap

/-! ### Draw command files -/

namespace Draw

variable {m : ResourceMap} {key : ResourceKey} {bytes payload : Bytes} {tag : Tag}
  {check : Bytes → Except DecodeError Unit}

/-- A file with the given tag whose payload passes `check`. -/
def IsFile (tag : Tag) (check : Bytes → Except DecodeError Unit) (bytes : Bytes) : Prop :=
  ∃ payload, filePayload bytes tag = .ok payload ∧ check payload = .ok ()

theorem exists_loadFile_iff (hstore : m.store.Describes key bytes) :
    (∃ b, (loadFile m key tag check).1 = .ok b)
      ↔ (∃ r, (m.load key false).1 = .ok r) ∧ IsFile tag check bytes := by
  rw [loadFile_eq]
  refine ResourceMap.exists_load_bind_iff hstore ?_
  rintro r rfl
  rw [exists_map_eq_ok_iff, IsFile, ← bind_eq_ok_iff]
  constructor
  · rintro ⟨u, hcheck⟩
    exact hcheck
  · intro hcheck
    exact ⟨(), hcheck⟩

theorem eq_append_of_filePayload (h : filePayload bytes tag = .ok payload) :
    ∃ size : Bytes, size.length = 4 ∧ bytes = tag.toBytes ++ (size ++ payload) := by
  unfold filePayload at h
  split at h
  · cases h
  · rename_i found rest hread
    split at h
    · cases h
    · rename_i htag
      split at h
      · cases h
      · rename_i size behind hword
        split at h
        · cases h
          unfold Bytes.word32? at hword
          split at hword
          · rename_i a b c d _
            cases hword
            refine ⟨[a, b, c, d], rfl, ?_⟩
            rw [Tag.eq_toBytes_append_of_read? hread, Decidable.not_not.1 htag]
            rfl
          · cases hword
        · cases h

theorem isFile_encodeFile (tag : Tag) (hlength : payload.length < 4294967296)
    (h : check payload = .ok ()) : IsFile tag check (encodeFile tag payload) := by
  have hsize : Bytes.word32? (Bytes.ofWord32 payload.length ++ payload)
      = some (payload.length, payload) := by
    simp only [Bytes.ofWord32, List.cons_append, List.nil_append, Bytes.word32?,
      UInt8.toNat_ofNat', Option.some.injEq, Prod.mk.injEq, and_true]
    omega
  refine ⟨payload, ?_, h⟩
  rw [encodeFile, List.append_assoc, filePayload, Tag.read?_toBytes_append]
  simp only [ne_eq, not_true_eq_false, if_false, hsize, if_true]

theorem length_of_readPrologue? {version : UInt8} {canvas : Size} {rest : Bytes}
    (h : readPrologue? bytes = some (version, canvas, rest)) : prologueSize ≤ bytes.length := by
  obtain ⟨-, reserved, rfl⟩ := eq_append_of_readPrologue? h
  exact Nat.le_add_left prologueSize rest.length

theorem Image.length_of_validate (h : validate bytes = .ok ()) : prologueSize ≤ bytes.length := by
  unfold validate at h
  split at h
  · cases h
  · rename_i hread
    exact length_of_readPrologue? hread

theorem Sequence.length_of_validate (h : validate bytes = .ok ()) :
    prologueSize ≤ bytes.length := by
  unfold validate at h
  split at h
  · rename_i hread
    exact length_of_readPrologue? hread
  · cases h

end Draw

/-! ### Loaders -/

inductive Loader
  | bitmap
  | image
  | sequence
  deriving DecidableEq, Repr

namespace Loader

variable {l : Loader} {m : ResourceMap} {key : ResourceKey} {platform : Platform} {bytes : Bytes}

/-- Something is made from the resource. -/
def Succeeds (m : ResourceMap) (key : ResourceKey) (platform : Platform) : Loader → Prop
  | .bitmap => ∃ b, (Bitmap.ofResource m key platform).1 = .ok b
  | .image => ∃ i, (Draw.Image.ofResource m key).1 = .ok i
  | .sequence => ∃ s, (Draw.Sequence.ofResource m key).1 = .ok s

/-- Something is made from a resource of these bytes, by whatever map and under whatever key. -/
def Accepts (l : Loader) (platform : Platform) (bytes : Bytes) : Prop :=
  ∃ (m : ResourceMap) (key : ResourceKey), m.store.Describes key bytes ∧ l.Succeeds m key platform

/-- Whether a heap copy has room for its pixels to be aligned. -/
def pads : Loader → Bool
  | .bitmap => true
  | .image | .sequence => false

/-- What the bytes have to be like once they are loaded. -/
def Reads (platform : Platform) (bytes : Bytes) : Loader → Prop
  | .bitmap =>
    if isPng bytes then ∃ b, Bitmap.ofPng bytes platform = .ok b
    else ∃ format, RawLayout.Fills bytes platform format
  | .image => Draw.IsFile Tag.drawImage Draw.Image.validate bytes
  | .sequence => Draw.IsFile Tag.drawSequence Draw.Sequence.validate bytes

theorem succeeds_iff (hstore : m.store.Describes key bytes) :
    l.Succeeds m key platform ↔ (∃ r, (m.load key l.pads).1 = .ok r) ∧ l.Reads platform bytes := by
  cases l with
  | bitmap => exact Bitmap.exists_ofResource_iff hstore
  | image =>
    rw [Succeeds, Draw.Image.ofResource_eq, exists_map_eq_ok_iff]
    exact Draw.exists_loadFile_iff hstore
  | sequence =>
    rw [Succeeds, Draw.Sequence.ofResource_eq, exists_map_eq_ok_iff]
    exact Draw.exists_loadFile_iff hstore

theorem accepts_iff : l.Accepts platform bytes ↔ bytes ≠ [] ∧ l.Reads platform bytes := by
  constructor
  · rintro ⟨m, key, hstore, h⟩
    obtain ⟨⟨r, hload⟩, hreads⟩ := (succeeds_iff hstore).1 h
    exact ⟨ResourceMap.ne_nil_of_load hstore hload, hreads⟩
  · rintro ⟨hbytes, hreads⟩
    obtain ⟨m, key, hstore, hload⟩ := ResourceMap.exists_load hbytes l.pads
    exact ⟨m, key, hstore, (succeeds_iff hstore).2 ⟨hload, hreads⟩⟩

end Loader

/-! ### Draw command files that are raw bitmaps -/

/-- Behind a tag there are the width and the height of a raw bitmap, and all of its rows. -/
structure PassesAsRaw (platform : Platform) (bytes : Bytes) : Prop where
  current : platform.compat ≠ .legacy
  width_le : (bytes.wordAt 8).toNat ≤ 17488
  height_le : (bytes.wordAt 10).toNat ≤ 32767
  length_eq : bytes.length = 12 + 17488 * (bytes.wordAt 10).toNat

section

variable {platform : Platform} {bytes : Bytes} {format : ImageFormat} {tag : Tag}

theorem exists_fills_iff (h : format.tag? = some tag) (hsniff : ImageFormat.sniff bytes = format) :
    (∃ f, RawLayout.Fills bytes platform f) ↔ PassesAsRaw platform bytes := by
  obtain ⟨rest, rfl⟩ := ImageFormat.eq_append_of_sniff h hsniff
  obtain ⟨hrowSize, hnumber⟩ := ImageFormat.words_of_tag? h rest
  constructor
  · rintro ⟨f, hfills⟩
    have hread := PixelFormat.ofNumber?_eq_some_iff.2 hfills.number
    rw [hnumber] at hread
    cases hread
    have hrows := hfills.rows
    have hlength := hfills.length_eq
    rw [hrowSize] at hrows hlength
    refine ⟨fun hlegacy => ?_, hrows.1, hfills.height_le, hlength⟩
    exact absurd (hfills.legacy hlegacy) (by decide)
  · rintro ⟨hcurrent, hwidth, hheight, hlength⟩
    refine ⟨.color, ⟨?_, hnumber, fun hlegacy => absurd hlegacy hcurrent, ?_, hheight, ?_⟩, ?_⟩
    · omega
    · omega
    · rw [hrowSize]
      exact ⟨hwidth, nofun⟩
    · rw [hrowSize]
      exact hlength

theorem accepts_bitmap_iff (h : format.tag? = some tag)
    (hsniff : ImageFormat.sniff bytes = format) :
    Loader.bitmap.Accepts platform bytes ↔ PassesAsRaw platform bytes := by
  obtain ⟨rest, hbytes⟩ := ImageFormat.eq_append_of_sniff h hsniff
  have hne : bytes ≠ [] := by
    rw [hbytes]
    exact List.cons_ne_nil _ _
  have hpng : ¬ isPng bytes = true := by
    rw [hbytes, ImageFormat.isPng_of_tag? h]
    exact Bool.false_ne_true
  rw [Loader.accepts_iff, and_iff_right hne, Loader.Reads, if_neg hpng, exists_fills_iff h hsniff]

theorem sniff_of_isFile {check : Bytes → Except DecodeError Unit} (h : format.tag? = some tag)
    (hcheck : ∀ payload, check payload = .ok () → Draw.prologueSize ≤ payload.length)
    (hfile : Draw.IsFile tag check bytes) :
    ImageFormat.sniff bytes = format ∧ 12 < bytes.length := by
  obtain ⟨payload, hpayload, hvalid⟩ := hfile
  obtain ⟨size, hsize, rfl⟩ := Draw.eq_append_of_filePayload hpayload
  have hlong : 6 ≤ payload.length := hcheck payload hvalid
  refine ⟨ImageFormat.sniff_toBytes_append h _, ?_⟩
  rw [List.length_append, List.length_append, Tag.length_toBytes, hsize]
  omega

theorem drawImage_of_accepts (h : Loader.image.Accepts platform bytes) :
    ImageFormat.sniff bytes = .drawImage ∧ 12 < bytes.length :=
  sniff_of_isFile rfl (fun _ => Draw.Image.length_of_validate) (Loader.accepts_iff.1 h).2

theorem drawSequence_of_accepts (h : Loader.sequence.Accepts platform bytes) :
    ImageFormat.sniff bytes = .drawSequence ∧ 12 < bytes.length :=
  sniff_of_isFile rfl (fun _ => Draw.Sequence.length_of_validate) (Loader.accepts_iff.1 h).2

end

/-! ### Files that two loaders take -/

namespace Draw

/-- Paths of points that lie on each other. -/
def dots (count points : Nat) : List Command :=
  List.replicate count ⟨false, .black, 1, .clear, .path true (List.replicate points ⟨0, 0⟩)⟩

theorem Command.length_encode (c : Command) :
    c.encode.length = recordHeaderSize + c.shape.pairs.length * pointSize := by
  rw [← Record.toBytes_ofCommand, Record.length_toBytes, ← length_encodePairs]
  rfl

theorem length_encode_dots (count points : Nat) :
    (CommandList.encode (dots count points)).length = 2 + count * (9 + points * 4) := by
  simp only [CommandList.encode, dots, List.length_append, Bytes.length_ofWord16,
    List.map_replicate, List.length_flatten, List.sum_replicate_nat, Command.length_encode,
    Shape.pairs, List.length_replicate]
  rfl

theorem areStorable_dots {count points : Nat} (hcount : count ≤ 65535) (hmany : 1 < points)
    (hpoints : points < 65536) : AreStorable (dots count points) := by
  refine ⟨?_, fun c hc => ?_⟩
  · rw [dots, List.length_replicate]
    exact hcount
  · rw [List.eq_of_mem_replicate hc]
    simp only [Shape.isStorable, Shape.kind, Shape.pairs, Kind.allows, List.length_map,
      List.length_replicate, hmany, hpoints, decide_true, Bool.and_self]

end Draw

theorem passesAsRaw_encodeFile {platform : Platform} {payload : Bytes} (tag : Tag)
    (hcurrent : platform.compat ≠ .legacy) (hwidth : (payload.wordAt 0).toNat ≤ 17488)
    (hheight : (payload.wordAt 2).toNat ≤ 32767)
    (hlength : payload.length = 4 + 17488 * (payload.wordAt 2).toNat) :
    PassesAsRaw platform (Draw.encodeFile tag payload) where
  current := hcurrent
  width_le := hwidth
  height_le := hheight
  length_eq := by
    have hword : (Draw.encodeFile tag payload).wordAt 10 = payload.wordAt 2 := rfl
    rw [hword, Draw.encodeFile, List.length_append, List.length_append, Tag.length_toBytes,
      Bytes.length_ofWord32, hlength]
    omega

/-- In a file of it the width of the canvas is the height of a raw bitmap, and 17488 bytes are
behind it. -/
def oneRowSequence : Bytes := Draw.Sequence.encode 1 ⟨1, 1⟩ 1 [(100, Draw.dots 6 726)]

theorem length_oneRowSequence : oneRowSequence.length = 17492 := by
  simp only [oneRowSequence, Draw.Sequence.encode, Draw.encodePrologue, Draw.Frame.encode,
    List.length_append, List.map_cons, List.map_nil, List.flatten_cons, List.flatten_nil,
    List.length_cons, List.length_nil, Bytes.length_ofWord16, Draw.length_encodePair,
    Draw.length_encode_dots]

theorem validate_oneRowSequence : Draw.Sequence.validate oneRowSequence = .ok () := by
  have hversion : (1 : UInt8) ≤ 1 := by decide
  have hstorable : ∀ x ∈ [((100 : UInt16), Draw.dots 6 726)], Draw.AreStorable x.2 := by
    rintro x hx
    rw [List.mem_singleton.1 hx]
    exact Draw.areStorable_dots (by decide) (by decide) (by decide)
  obtain ⟨s, hs, -⟩ := Draw.Sequence.exists_ofBytes_encode hversion ⟨1, 1⟩ 1 (by decide)
    (by decide) hstorable
  obtain ⟨u, hvalid, -⟩ := map_eq_ok_iff.1 hs
  exact hvalid

/-- An image of which the same can be said. -/
def oneRowImage : Bytes := Draw.Image.encode 1 ⟨1, 1⟩ (Draw.dots 12 362)

theorem length_oneRowImage : oneRowImage.length = 17492 := by
  simp only [oneRowImage, Draw.Image.encode, Draw.encodePrologue, List.length_append,
    List.length_cons, List.length_nil, Draw.length_encodePair, Draw.length_encode_dots]

theorem validate_oneRowImage : Draw.Image.validate oneRowImage = .ok () := by
  have hversion : (1 : UInt8) ≤ 1 := by decide
  have hstorable : Draw.AreStorable (Draw.dots 12 362) :=
    Draw.areStorable_dots (by decide) (by decide) (by decide)
  obtain ⟨i, hi, -⟩ := Draw.Image.exists_ofBytes_encode hversion ⟨1, 1⟩ hstorable
  obtain ⟨u, hvalid, -⟩ := map_eq_ok_iff.1 hi
  exact hvalid

/-- What a loader takes has its format, but that of bitmaps takes draw command files as well, those
that pass as raw bitmaps. No file is an image and a sequence. One that is also a bitmap has a row of
17488 bytes, or several, behind the first twelve bytes. -/
theorem loaders_and_formats (platform : Platform) (bytes : Bytes) :
    (Loader.bitmap.Accepts platform bytes →
        ImageFormat.sniff bytes = .png ∨ ImageFormat.sniff bytes = .rawBitmap
          ∨ (ImageFormat.sniff bytes = .drawImage ∨ ImageFormat.sniff bytes = .drawSequence)
            ∧ PassesAsRaw platform bytes)
      ∧ (Loader.image.Accepts platform bytes → ImageFormat.sniff bytes = .drawImage)
      ∧ (Loader.sequence.Accepts platform bytes → ImageFormat.sniff bytes = .drawSequence)
      ∧ (ImageFormat.sniff bytes = .drawImage ∨ ImageFormat.sniff bytes = .drawSequence →
        (Loader.bitmap.Accepts platform bytes ↔ PassesAsRaw platform bytes))
      ∧ ¬ (Loader.image.Accepts platform bytes ∧ Loader.sequence.Accepts platform bytes)
      ∧ (Loader.bitmap.Accepts platform bytes →
        Loader.image.Accepts platform bytes ∨ Loader.sequence.Accepts platform bytes →
        PassesAsRaw platform bytes ∧ 1 ≤ (bytes.wordAt 10).toNat) := by
  have hdrawn : ImageFormat.sniff bytes = .drawImage ∨ ImageFormat.sniff bytes = .drawSequence →
      (Loader.bitmap.Accepts platform bytes ↔ PassesAsRaw platform bytes) := by
    rintro (hsniff | hsniff)
    · exact accepts_bitmap_iff rfl hsniff
    · exact accepts_bitmap_iff rfl hsniff
  refine ⟨fun hbitmap => ?_, fun himage => (drawImage_of_accepts himage).1,
    fun hsequence => (drawSequence_of_accepts hsequence).1, hdrawn, ?_, ?_⟩
  · cases hsniff : ImageFormat.sniff bytes with
    | png => exact Or.inl rfl
    | rawBitmap => exact Or.inr (Or.inl rfl)
    | drawImage => exact Or.inr (Or.inr ⟨Or.inl rfl, (hdrawn (Or.inl hsniff)).1 hbitmap⟩)
    | drawSequence => exact Or.inr (Or.inr ⟨Or.inr rfl, (hdrawn (Or.inr hsniff)).1 hbitmap⟩)
  · rintro ⟨himage, hsequence⟩
    have hsame := (drawImage_of_accepts himage).1.symm.trans (drawSequence_of_accepts hsequence).1
    cases hsame
  · intro hbitmap hother
    have hfile : (ImageFormat.sniff bytes = .drawImage ∨ ImageFormat.sniff bytes = .drawSequence)
        ∧ 12 < bytes.length := by
      rcases hother with himage | hsequence
      · exact ⟨Or.inl (drawImage_of_accepts himage).1, (drawImage_of_accepts himage).2⟩
      · exact ⟨Or.inr (drawSequence_of_accepts hsequence).1, (drawSequence_of_accepts hsequence).2⟩
    have hpasses := (hdrawn hfile.1).1 hbitmap
    have hlength := hpasses.length_eq
    have hlong := hfile.2
    exact ⟨hpasses, by omega⟩

theorem loaders_and_formats_oneRowSequence :
    let file := Draw.encodeFile Tag.drawSequence oneRowSequence
    Loader.sequence.Accepts .standard file ∧ ImageFormat.sniff file = .drawSequence
      ∧ ¬ Loader.image.Accepts .standard file
      ∧ PassesAsRaw .standard file ∧ Loader.bitmap.Accepts .standard file := by
  intro file
  have hlength := length_oneRowSequence
  have hsequence : Loader.sequence.Accepts .standard file := Loader.accepts_iff.2
    ⟨List.cons_ne_nil _ _, Draw.isFile_encodeFile _ (by omega) validate_oneRowSequence⟩
  have hpasses : PassesAsRaw .standard file :=
    passesAsRaw_encodeFile _ (by decide) (by decide) (by decide) hlength
  obtain ⟨-, -, hsniff, hbitmap, hexclusive, -⟩ := loaders_and_formats .standard file
  have hformat := hsniff hsequence
  exact ⟨hsequence, hformat, fun himage => hexclusive ⟨himage, hsequence⟩, hpasses,
    (hbitmap (Or.inr hformat)).2 hpasses⟩

/-- An image that the loader of bitmaps takes for one of its own. -/
theorem image_taken_for_bitmap :
    let file := Draw.encodeFile Tag.drawImage oneRowImage
    ImageFormat.sniff file = .drawImage ∧ Loader.image.Accepts .standard file
      ∧ Loader.bitmap.Accepts .standard file := by
  intro file
  have hlength := length_oneRowImage
  have himage : Loader.image.Accepts .standard file := Loader.accepts_iff.2
    ⟨List.cons_ne_nil _ _, Draw.isFile_encodeFile _ (by omega) validate_oneRowImage⟩
  have hpasses : PassesAsRaw .standard file :=
    passesAsRaw_encodeFile _ (by decide) (by decide) (by decide) hlength
  have hsniff := (drawImage_of_accepts himage).1
  exact ⟨hsniff, himage, (accepts_bitmap_iff rfl hsniff).2 hpasses⟩

end DialGraphics
