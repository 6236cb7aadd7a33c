import DialGraphics.Deflate.Zlib

/-!
# Stored streams

A stream of stored blocks yields the blocks joined, however the contents are divided into blocks,
and whatever the checksum, the padding of the blocks and what follows the stream say. It yields
nothing if that is not the size asked for.
-/

namespace DialGraphics.Deflate

theorem size_append_bytes (out : Output) (data : Bytes) :
    (out ++ data).size = out.size + data.length := by
  rw [← Array.length_toList, Array.toList_appendList, List.length_append, Array.length_toList]

def maxStored : Nat := 65535

theorem stored?_append {limit : Nat} {out : Output} {data : Bytes}
    (hdata : data.length ≤ maxStored) (rest : Bytes) :
    stored? limit out (Bytes.ofWord16 (UInt16.ofNat data.length)
        ++ (Bytes.ofWord16 (UInt16.ofNat (65535 - data.length)) ++ (data ++ rest)))
      = if out.size + data.length ≤ limit then some (out ++ data, rest) else none := by
  have hword : (UInt16.ofNat data.length).toNat = data.length := by
    rw [UInt16.toNat_ofNat']
    unfold maxStored at hdata
    omega
  have hcomplement : (UInt16.ofNat (65535 - data.length)).toNat = 65535 - data.length := by
    rw [UInt16.toNat_ofNat']
    omega
  have hsplit : Bytes.splitAt? data.length (data ++ rest) = some (data, rest) :=
    Bytes.splitAt?_eq_some_iff.2 ⟨rfl, rfl⟩
  have hsum : ¬ data.length + (65535 - data.length) ≠ 65535 := by
    unfold maxStored at hdata
    omega
  simp only [stored?, Bytes.word16?_ofWord16_append, Option.bind_eq_bind, Option.bind_some]
  rw [hword, hcomplement, if_neg hsum, hsplit]
  rfl

/-! ### Blocks one after the other -/

theorem blocks?_of_number? {limit last kind : Nat} {out : Output} {bits b1 b2 : Bits}
    (h1 : bits.number? 1 = some (last, b1)) (h2 : b1.number? 2 = some (kind, b2)) :
    blocks? limit out bits
      = (block? limit kind out b2).bind fun (next, b3) =>
          if last = 1 then some (next, b3) else blocks? limit next b3 := by
  rw [blocks?]
  split
  · rename_i hnone
    rw [h1] at hnone
    cases hnone
  · rename_i hsome
    rw [h1] at hsome
    cases hsome
    split
    · rename_i hnone
      rw [h2] at hnone
      cases hnone
    · rename_i hsome
      rw [h2] at hsome
      cases hsome
      split
      · rename_i hnone
        rw [hnone]
        rfl
      · rename_i hsome
        rw [hsome]
        rfl

/-- A block whose contents can be read is followed by the other blocks, unless it is the last. -/
theorem blocks?_of_block? {limit last kind : Nat} {out next : Output} {bits b1 b2 b3 : Bits}
    (h1 : bits.number? 1 = some (last, b1)) (h2 : b1.number? 2 = some (kind, b2))
    (h3 : block? limit kind out b2 = some (next, b3)) :
    blocks? limit out bits = if last = 1 then some (next, b3) else blocks? limit next b3 := by
  rw [blocks?_of_number? h1 h2, h3]
  rfl

/-- Stored bytes as one block. The bits between its kind and its length may be anything. -/
structure StoredBlock where
  padding : Nat
  padding_lt : padding < 32
  data : Bytes
  data_le : data.length ≤ maxStored

namespace StoredBlock

/-- Whether the block is the last, its kind, and the padding. -/
def firstByte (b : StoredBlock) (last : Bool) : UInt8 :=
  UInt8.ofNat ((if last then 1 else 0) + 8 * b.padding)

def toBytes (last : Bool) (b : StoredBlock) : Bytes :=
  b.firstByte last :: (Bytes.ofWord16 (UInt16.ofNat b.data.length)
    ++ (Bytes.ofWord16 (UInt16.ofNat (65535 - b.data.length)) ++ b.data))

theorem toNat_firstByte (b : StoredBlock) (last : Bool) :
    (b.firstByte last).toNat = (if last then 1 else 0) + 8 * b.padding := by
  have hpadding := b.padding_lt
  rw [firstByte, UInt8.toNat_ofNat']
  cases last <;> simp only [Bool.false_eq_true, if_true, if_false] <;> omega

theorem number?_firstByte (b : StoredBlock) (last : Bool) (tail : Bytes) :
    (Bits.ofBytes (b.firstByte last :: tail)).number? 1
        = some (if last then 1 else 0, ⟨b.firstByte last :: tail, 1, by omega⟩)
      ∧ (⟨b.firstByte last :: tail, 1, by omega⟩ : Bits).number? 2
        = some (0, ⟨b.firstByte last :: tail, 3, by omega⟩) := by
  have hbyte := b.toNat_firstByte last
  have hlast : (b.firstByte last).toNat % 2 = if last then 1 else 0 := by
    cases last <;> simp only [Bool.false_eq_true, if_true, if_false] at hbyte ⊢ <;> omega
  have hkind : (b.firstByte last).toNat >>> 1 % 2 = 0 ∧ (b.firstByte last).toNat >>> 2 % 2 = 0 := by
    simp only [Nat.shiftRight_eq_div_pow]
    cases last <;> simp only [Bool.false_eq_true, if_true, if_false] at hbyte <;> omega
  constructor
  · simp [Bits.number?, Bits.bit?, Bits.ofBytes, hlast]
  · simp [Bits.number?, Bits.bit?, hkind]

theorem blocks?_toBytes_append (b : StoredBlock) (last : Bool) (limit : Nat) (out : Output)
    (rest : Bytes) :
    blocks? limit out (Bits.ofBytes (b.toBytes last ++ rest))
      = if out.size + b.data.length ≤ limit then
          if last then some (out ++ b.data, Bits.ofBytes rest)
          else blocks? limit (out ++ b.data) (Bits.ofBytes rest)
        else none := by
  let tail := Bytes.ofWord16 (UInt16.ofNat b.data.length)
    ++ (Bytes.ofWord16 (UInt16.ofNat (65535 - b.data.length)) ++ (b.data ++ rest))
  have hblock : block? limit 0 out ⟨b.firstByte last :: tail, 3, by omega⟩
      = if out.size + b.data.length ≤ limit then some (out ++ b.data, Bits.ofBytes rest)
        else none := by
    show (stored? limit out tail).map _ = _
    rw [stored?_append b.data_le]
    split <;> rfl
  have hbytes : b.toBytes last ++ rest = b.firstByte last :: tail := by
    simp only [toBytes, List.append_assoc, List.cons_append, tail]
  obtain ⟨hlast, hkind⟩ := b.number?_firstByte last tail
  rw [hbytes, blocks?_of_number? hlast hkind, hblock]
  split
  · cases last <;> rfl
  · rfl

end StoredBlock

theorem blocks?_storedBlocks_append (blocks : List StoredBlock) (limit : Nat) (out : Output)
    (rest : Bytes) (hroom : out.size ≤ limit) :
    blocks? limit out (Bits.ofBytes ((blocks.map (StoredBlock.toBytes false)).flatten ++ rest))
      = if out.size + (blocks.map StoredBlock.data).flatten.length ≤ limit then
          blocks? limit (out ++ (blocks.map StoredBlock.data).flatten) (Bits.ofBytes rest)
        else none := by
  -- a block for which there is no room is where the whole stream is refused
  induction blocks generalizing out with
  | nil => simp [hroom]
  | cons b blocks ih =>
    simp only [List.map_cons, List.flatten_cons, List.append_assoc, List.length_append]
    rw [b.blocks?_toBytes_append false]
    by_cases hb : out.size + b.data.length ≤ limit
    · have hnext : (out ++ b.data).size ≤ limit := by rw [size_append_bytes]; exact hb
      have hout : out ++ b.data ++ (blocks.map StoredBlock.data).flatten
          = out ++ (b.data ++ (blocks.map StoredBlock.data).flatten) := by
        apply Array.toList_inj.1
        simp
      rw [if_pos hb, ih _ hnext, size_append_bytes, Nat.add_assoc, hout]
      rfl
    · rw [if_neg hb, if_neg (by omega)]

/-! ### Streams -/

/-- A way to write some bytes as a stream of stored blocks. -/
structure StoredEncoding (content : Bytes) where
  method : UInt8
  flags : UInt8
  isHeader : Zlib.isHeader method flags = true
  blocks : List StoredBlock
  last : StoredBlock
  checksum : Bytes
  length_checksum : checksum.length = 4
  joined : (blocks.map StoredBlock.data).flatten ++ last.data = content

namespace StoredEncoding

variable {content : Bytes}

/-- The blocks with what follows them. -/
def body (e : StoredEncoding content) (rest : Bytes) : Bytes :=
  (e.blocks.map (StoredBlock.toBytes false)).flatten ++ (e.last.toBytes true ++ rest)

def toBytes (e : StoredEncoding content) : Bytes :=
  e.method :: e.flags :: e.body e.checksum

theorem toBytes_append (e : StoredEncoding content) (tail : Bytes) :
    e.toBytes ++ tail = e.method :: e.flags :: e.body (e.checksum ++ tail) := by
  simp only [toBytes, body, List.cons_append, List.append_assoc]

theorem blocks?_body (e : StoredEncoding content) (size : Nat) (rest : Bytes) :
    blocks? size #[] (Bits.ofBytes (e.body rest))
      = if content.length ≤ size then some (content.toArray, Bits.ofBytes rest) else none := by
  have hlength : (e.blocks.map StoredBlock.data).flatten.length + e.last.data.length
      = content.length := by rw [← List.length_append, e.joined]
  have hout : (#[] : Output) ++ (e.blocks.map StoredBlock.data).flatten ++ e.last.data
      = content.toArray := by
    apply Array.toList_inj.1
    simp [e.joined]
  have hempty : (#[] : Output).size = 0 := rfl
  rw [body, blocks?_storedBlocks_append _ _ _ _ (Nat.zero_le _), e.last.blocks?_toBytes_append,
    size_append_bytes, hempty, Nat.zero_add, hlength, hout]
  by_cases hfits : content.length ≤ size
  · rw [if_pos (by omega), if_pos hfits, if_pos hfits]
    rfl
  · rw [if_neg hfits, if_neg hfits, ite_self]

/-- A stream yields its contents if they have the size that is asked for, and nothing else. -/
theorem inflate?_toBytes_append (e : StoredEncoding content) (size : Nat) (tail : Bytes) :
    Zlib.inflate? size (e.toBytes ++ tail)
      = if content.length = size then some content else none := by
  have hchecksum : 4 ≤ ((Bits.ofBytes (e.checksum ++ tail)).align.take 4).length := by
    show 4 ≤ ((e.checksum ++ tail).take 4).length
    rw [List.length_take, List.length_append, e.length_checksum]
    omega
  have hsize : content.toArray.size = content.length := rfl
  simp only [e.toBytes_append, Zlib.inflate?]
  rw [if_pos e.isHeader, e.blocks?_body]
  by_cases hfits : content.length ≤ size
  · rw [if_pos hfits]
    simp only [hchecksum, true_and, hsize]
  · rw [if_neg hfits, if_neg (by omega)]

end StoredEncoding

/-- A way to write some bytes as a stream of stored blocks without padding, with the header of a
stream that is not compressed. -/
structure StoredStream (content : Bytes) where
  blocks : List Bytes
  last : Bytes
  checksum : Bytes
  joined : blocks.flatten ++ last = content
  blocks_le : ∀ b ∈ blocks, b.length ≤ maxStored
  last_le : last.length ≤ maxStored
  length_checksum : checksum.length = 4

namespace StoredStream

variable {content : Bytes}

def toBytes (s : StoredStream content) : Bytes := Zlib.encodeStored s.blocks s.last s.checksum

def plainBlock (data : Bytes) (hdata : data.length ≤ maxStored) : StoredBlock where
  padding := 0
  padding_lt := by decide
  data := data
  data_le := hdata

theorem toBytes_plainBlock {data : Bytes} (hdata : data.length ≤ maxStored) (last : Bool) :
    (plainBlock data hdata).toBytes last = Zlib.storedBlock last data := by
  cases last <;> simp [StoredBlock.toBytes, StoredBlock.firstByte, plainBlock, Zlib.storedBlock]

def encoding (s : StoredStream content) : StoredEncoding content where
  method := 0x78
  flags := 0x01
  isHeader := by decide
  blocks := s.blocks.pmap plainBlock s.blocks_le
  last := plainBlock s.last s.last_le
  checksum := s.checksum
  length_checksum := s.length_checksum
  joined := by
    rw [List.map_pmap]
    show (s.blocks.pmap (fun data _ => data) s.blocks_le).flatten ++ s.last = content
    rw [List.pmap_eq_map, List.map_id', s.joined]

theorem toBytes_encoding (s : StoredStream content) : s.encoding.toBytes = s.toBytes := by
  have hblocks : (s.blocks.pmap plainBlock s.blocks_le).map (StoredBlock.toBytes false)
      = s.blocks.map (Zlib.storedBlock false) := by
    rw [List.map_pmap]
    simp only [toBytes_plainBlock, List.pmap_eq_map]
  simp only [StoredEncoding.toBytes, StoredEncoding.body, encoding, hblocks, toBytes_plainBlock,
    toBytes, Zlib.encodeStored, List.append_assoc, List.cons_append, List.nil_append]

end StoredStream

theorem inflate?_storedStream {content : Bytes} (s : StoredStream content) :
    Zlib.inflate? content.length s.toBytes = some content := by
  have hinflate := s.encoding.inflate?_toBytes_append content.length []
  rwa [List.append_nil, s.toBytes_encoding, if_pos rfl] at hinflate

end DialGraphics.Deflate
