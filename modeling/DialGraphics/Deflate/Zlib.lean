import DialGraphics.Deflate.Block

/-!
# Zlib streams

Two header bytes, compressed blocks, and four checksum bytes that must be there but are not
compared. What follows them is ignored. A stream must yield exactly the number of bytes that is
asked for. `encodeStored` writes streams without compression.
-/

namespace DialGraphics.Deflate.Zlib

/-- Whether two bytes start a stream: method 8, a window of at most 32 KiB, no preset dictionary,
and a value divisible by 31. -/
def isHeader (method flags : UInt8) : Bool :=
  method.toNat % 16 == 8 && method.toNat / 16 ≤ 7 && flags.toNat / 32 % 2 == 0
    && (256 * method.toNat + flags.toNat) % 31 == 0

def inflate? (size : Nat) : Bytes → Option Bytes
  | method :: flags :: rest =>
    if isHeader method flags then
      match blocks? size #[] (Bits.ofBytes rest) with
      | none => none
      | some (out, bits) =>
        if 4 ≤ (bits.align.take 4).length ∧ out.size = size then some out.toList else none
    else none
  | _ => none

theorem length_of_inflate? {size : Nat} {stream bytes : Bytes}
    (h : inflate? size stream = some bytes) : bytes.length = size := by
  unfold inflate? at h
  split at h
  · split at h
    · split at h
      · cases h
      · split at h
        · rename_i hsize
          cases h
          exact hsize.2
        · cases h
    · cases h
  · cases h

/-! ### Writing without compression -/

def storedBlock (last : Bool) (data : Bytes) : Bytes :=
  (if last then 1 else 0) :: Bytes.ofWord16 (UInt16.ofNat data.length)
    ++ Bytes.ofWord16 (UInt16.ofNat (65535 - data.length)) ++ data

/-- A stream of stored blocks, the last one marked, then the checksum bytes. -/
def encodeStored (blocks : List Bytes) (last checksum : Bytes) : Bytes :=
  [0x78, 0x01] ++ (blocks.map (storedBlock false)).flatten ++ storedBlock true last ++ checksum

end DialGraphics.Deflate.Zlib
