import DialGraphics.Tag

/-!
# PNG chunks

A chunk is a length, a tag, that many bytes of data, and a checksum that is kept but never compared.
`split` takes all chunks off the front; what is left starts with no complete chunk. `encodeFile`
writes a file of given chunks.
-/

namespace DialGraphics.Png

/-! ### Chunk tags -/

def Tag.ihdr : Tag := Tag.ofChars 'I' 'H' 'D' 'R'
def Tag.plte : Tag := Tag.ofChars 'P' 'L' 'T' 'E'
def Tag.idat : Tag := Tag.ofChars 'I' 'D' 'A' 'T'
def Tag.iend : Tag := Tag.ofChars 'I' 'E' 'N' 'D'
def Tag.trns : Tag := Tag.ofChars 't' 'R' 'N' 'S'
def Tag.actl : Tag := Tag.ofChars 'a' 'c' 'T' 'L'
def Tag.fctl : Tag := Tag.ofChars 'f' 'c' 'T' 'L'
def Tag.fdat : Tag := Tag.ofChars 'f' 'd' 'A' 'T'

structure Chunk where
  tag : Tag
  data : Bytes
  crc : Nat
  deriving DecidableEq, Repr

namespace Chunk

def pull? (bytes : Bytes) : Option (Chunk × Bytes) := do
  let (length, rest) ← Bytes.bigWord32? bytes
  let (tag, rest) ← Tag.read? rest
  let (data, rest) ← Bytes.splitAt? length rest
  let (crc, rest) ← Bytes.bigWord32? rest
  return (⟨tag, data, crc⟩, rest)

def encode (c : Chunk) : Bytes :=
  Bytes.ofBigWord32 c.data.length ++ c.tag.toBytes ++ c.data ++ Bytes.ofBigWord32 c.crc

def encodeAll (chunks : List Chunk) : Bytes := (chunks.map encode).flatten

def encodeFile (chunks : List Chunk) : Bytes := pngSignature ++ encodeAll chunks

theorem length_of_pull? {bytes rest : Bytes} {c : Chunk} (h : pull? bytes = some (c, rest)) :
    bytes.length = 12 + c.data.length + rest.length := by
  simp only [pull?, Option.bind_eq_bind, Option.bind_eq_some_iff, Option.pure_def,
    Option.some.injEq, Prod.mk.injEq, Prod.exists] at h
  obtain ⟨_, r1, h1, _, r2, h2, _, r3, h3, _, r4, h4, rfl, rfl⟩ := h
  have e1 := Bytes.length_of_bigWord32? h1
  have e4 := Bytes.length_of_bigWord32? h4
  have e2 := congrArg List.length (Tag.eq_toBytes_append_of_read? h2)
  obtain ⟨_, e3⟩ := Bytes.splitAt?_eq_some_iff.1 h3
  have e3 := congrArg List.length e3
  simp only [List.length_append, Tag.length_toBytes] at e2 e3
  simp only
  omega

def split (bytes : Bytes) : List Chunk × Bytes :=
  match _h : pull? bytes with
  | none => ([], bytes)
  | some (c, rest) =>
    let (chunks, tail) := split rest
    (c :: chunks, tail)
termination_by bytes.length
decreasing_by
  have := length_of_pull? _h
  omega

end Chunk

end DialGraphics.Png
