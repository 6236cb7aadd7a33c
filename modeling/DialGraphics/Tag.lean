import DialGraphics.Bytes.Basic

/-!
# Tags and signatures

A tag is four bytes that are meant to be read as letters. Resources are told apart by what they
start with: the PNG signature, the tag of a draw command file, or neither, which makes them a raw
bitmap.
-/

namespace DialGraphics

structure Tag where
  b0 : UInt8
  b1 : UInt8
  b2 : UInt8
  b3 : UInt8
  deriving DecidableEq, Repr

namespace Tag

def ofChars (a b c d : Char) : Tag :=
  ⟨UInt8.ofNat a.toNat, UInt8.ofNat b.toNat, UInt8.ofNat c.toNat, UInt8.ofNat d.toNat⟩

def toBytes (t : Tag) : Bytes := [t.b0, t.b1, t.b2, t.b3]

def read? : Bytes → Option (Tag × Bytes)
  | a :: b :: c :: d :: rest => some (⟨a, b, c, d⟩, rest)
  | _ => none

/-- Whether the first letter is in lower case, which marks a chunk as safe to skip. -/
def isAncillary (t : Tag) : Bool := t.b0 &&& 0x20 != 0

def drawImage : Tag := ofChars 'P' 'D' 'C' 'I'

def drawSequence : Tag := ofChars 'P' 'D' 'C' 'S'

@[simp] theorem length_toBytes (t : Tag) : t.toBytes.length = 4 := rfl

theorem read?_toBytes_append (t : Tag) (rest : Bytes) :
    read? (t.toBytes ++ rest) = some (t, rest) := rfl

theorem eq_toBytes_append_of_read? {bytes rest : Bytes} {t : Tag}
    (h : read? bytes = some (t, rest)) : bytes = t.toBytes ++ rest := by
  unfold read? at h
  split at h
  · cases h
    rfl
  · cases h

end Tag

/-! ### Resource formats -/

def pngSignature : Bytes := [137, 80, 78, 71, 13, 10, 26, 10]

def isPng (bytes : Bytes) : Bool := bytes.take 8 == pngSignature

inductive ImageFormat
  | png
  | drawImage
  | drawSequence
  | rawBitmap
  deriving DecidableEq, Repr

def ImageFormat.sniff (bytes : Bytes) : ImageFormat :=
  if isPng bytes then .png
  else
    match Tag.read? bytes with
    | some (tag, _) =>
      if tag = Tag.drawImage then .drawImage
      else if tag = Tag.drawSequence then .drawSequence
      else .rawBitmap
    | none => .rawBitmap

end DialGraphics
