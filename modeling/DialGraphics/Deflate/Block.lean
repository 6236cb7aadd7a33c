import DialGraphics.Deflate.Code

/-!
# Compressed blocks

A compressed stream is a run of blocks: stored bytes, or symbols of two codes that are fixed or come
with the block. A symbol is a byte, the end of the block, or a copy of bytes that came before. The
output never grows past a given limit; a stream that would is refused, like every other defect.
-/

namespace DialGraphics.Deflate

abbrev Output := Array UInt8

/-! ### Copies -/

/-- A copy of bytes that came before. -/
structure Copy where
  length : Nat
  distance : Nat

/-- The length symbols, each with its shortest length and the number of further bits. -/
def lengthTable : List (Nat × Nat × Nat) :=
  [(257, 3, 0), (258, 4, 0), (259, 5, 0), (260, 6, 0), (261, 7, 0), (262, 8, 0), (263, 9, 0),
    (264, 10, 0), (265, 11, 1), (266, 13, 1), (267, 15, 1), (268, 17, 1), (269, 19, 2),
    (270, 23, 2), (271, 27, 2), (272, 31, 2), (273, 35, 3), (274, 43, 3), (275, 51, 3),
    (276, 59, 3), (277, 67, 4), (278, 83, 4), (279, 99, 4), (280, 115, 4), (281, 131, 5),
    (282, 163, 5), (283, 195, 5), (284, 227, 5), (285, 258, 0)]

/-- The shortest distance and the number of further bits of each distance symbol. -/
def distanceTable : List (Nat × Nat) :=
  [(1, 0), (2, 0), (3, 0), (4, 0), (5, 1), (7, 1), (9, 2), (13, 2), (17, 3), (25, 3), (33, 4),
    (49, 4), (65, 5), (97, 5), (129, 6), (193, 6), (257, 7), (385, 7), (513, 8), (769, 8),
    (1025, 9), (1537, 9), (2049, 10), (3073, 10), (4097, 11), (6145, 11), (8193, 12), (12289, 12),
    (16385, 13), (24577, 13)]

def entryValue? (entry : Option (Nat × Nat)) (bits : Bits) : Option (Nat × Bits) :=
  match entry with
  | none => none
  | some (base, extra) => (bits.number? extra).map fun (more, rest) => (base + more, rest)

def Copy.read? (distances : Code) (symbol : Nat) (bits : Bits) : Option (Copy × Bits) :=
  match entryValue? (lengthTable.lookup symbol) bits with
  | none => none
  | some (length, rest) =>
    match distances.read? rest with
    | none => none
    | some (index, rest) =>
      (entryValue? distanceTable[index]? rest).map fun (distance, rest) =>
        (⟨length, distance⟩, rest)

/-- Appends `n` bytes, each one equal to the byte `distance` places before it. -/
def copyBack (distance : Nat) : Nat → Output → Output
  | 0, out => out
  | n + 1, out => copyBack distance n (out.push (out[out.size - distance]?.getD 0))

theorem remaining_of_entryValue? {entry : Option (Nat × Nat)} {v : Nat} {bits rest : Bits}
    (h : entryValue? entry bits = some (v, rest)) : rest.remaining ≤ bits.remaining := by
  simp only [entryValue?] at h
  split at h
  · cases h
  · simp only [Option.map_eq_some_iff, Prod.mk.injEq, Prod.exists] at h
    obtain ⟨_, _, hn, _, rfl⟩ := h
    have := Bits.remaining_of_number? hn
    omega

theorem Copy.remaining_of_read? {distances : Code} {symbol : Nat} {bits rest : Bits} {c : Copy}
    (h : Copy.read? distances symbol bits = some (c, rest)) : rest.remaining ≤ bits.remaining := by
  simp only [Copy.read?] at h
  split at h
  · cases h
  · rename_i h1
    split at h
    · cases h
    · rename_i h2
      simp only [Option.map_eq_some_iff, Prod.mk.injEq, Prod.exists] at h
      obtain ⟨_, _, h3, _, rfl⟩ := h
      exact Nat.le_trans (remaining_of_entryValue? h3)
        (Nat.le_trans (Nat.le_of_lt (Code.remaining_of_read? h2)) (remaining_of_entryValue? h1))

/-! ### Symbols -/

def symbols? (limit : Nat) (literals distances : Code) (out : Output) (bits : Bits) :
    Option (Output × Bits) :=
  match _h : literals.read? bits with
  | none => none
  | some (symbol, rest) =>
    if symbol < 256 then
      if out.size < limit then
        symbols? limit literals distances (out.push (UInt8.ofNat symbol)) rest
      else none
    else if symbol = 256 then some (out, rest)
    else
      match _h' : Copy.read? distances symbol rest with
      | none => none
      | some (copy, rest') =>
        if copy.distance ≤ out.size ∧ out.size + copy.length ≤ limit then
          symbols? limit literals distances (copyBack copy.distance copy.length out) rest'
        else none
termination_by bits.remaining
decreasing_by
  · exact Code.remaining_of_read? _h
  · exact Nat.lt_of_le_of_lt (Copy.remaining_of_read? _h') (Code.remaining_of_read? _h)

theorem remaining_of_symbols? {limit : Nat} {literals distances : Code} {out out' : Output}
    {bits rest : Bits} (h : symbols? limit literals distances out bits = some (out', rest)) :
    rest.remaining ≤ bits.remaining := by
  fun_induction symbols? limit literals distances out bits with
  | case1 => cases h
  | case2 out bits symbol rest' hr _ _ ih =>
    exact Nat.le_trans (ih h) (Nat.le_of_lt (Code.remaining_of_read? hr))
  | case3 => cases h
  | case4 out bits rest' hr =>
    cases h
    exact Nat.le_of_lt (Code.remaining_of_read? hr)
  | case5 => cases h
  | case6 out bits symbol rest' hr _ _ copy rest'' hc _ ih =>
    exact Nat.le_trans (ih h)
      (Nat.le_trans (Copy.remaining_of_read? hc) (Nat.le_of_lt (Code.remaining_of_read? hr)))
  | case7 => cases h

/-! ### Codes of a block -/

/-- The order in which the lengths of the code for word lengths are written. -/
def lengthOrder : List Nat := [16, 17, 18, 0, 8, 7, 9, 6, 10, 5, 11, 4, 12, 3, 13, 2, 14, 1, 15]

def triples? : Nat → Bits → Option (List Nat × Bits)
  | 0, bits => some ([], bits)
  | n + 1, bits =>
    match bits.number? 3 with
    | none => none
    | some (v, rest) => (triples? n rest).map fun (vs, rest) => (v :: vs, rest)

/-- One word length and how often it is meant; `previous` is the one before it. -/
def lengthRun? (code : Code) (previous : Option Nat) (bits : Bits) :
    Option ((Nat × Nat) × Bits) :=
  match code.read? bits with
  | none => none
  | some (symbol, rest) =>
    if symbol < 16 then some ((symbol, 1), rest)
    else if symbol = 16 then
      match previous with
      | none => none
      | some length => (rest.number? 2).map fun (n, rest) => ((length, 3 + n), rest)
    else if symbol = 17 then (rest.number? 3).map fun (n, rest) => ((0, 3 + n), rest)
    else (rest.number? 7).map fun (n, rest) => ((0, 11 + n), rest)

theorem remaining_of_lengthRun? {code : Code} {previous : Option Nat} {bits rest : Bits}
    {run : Nat × Nat} (h : lengthRun? code previous bits = some (run, rest)) :
    rest.remaining < bits.remaining := by
  simp only [lengthRun?] at h
  split at h
  · cases h
  · rename_i hr
    have h0 := Code.remaining_of_read? hr
    have step : ∀ {n v : Nat} {mid last : Bits},
        mid.number? n = some (v, last) → mid.remaining < bits.remaining →
          last.remaining < bits.remaining := by
      intro n v mid last hn hm
      have := Bits.remaining_of_number? hn
      omega
    split at h
    · cases h
      exact h0
    · split at h
      · split at h
        · cases h
        · simp only [Option.map_eq_some_iff, Prod.mk.injEq, Prod.exists] at h
          obtain ⟨_, _, hn, _, rfl⟩ := h
          exact step hn h0
      · split at h
        all_goals
          simp only [Option.map_eq_some_iff, Prod.mk.injEq, Prod.exists] at h
          obtain ⟨_, _, hn, _, rfl⟩ := h
          exact step hn h0

/-- The next `need` word lengths after those in `done`, which has the last one first. A run past the
end is refused. -/
def wordLengths? (code : Code) (need : Nat) (done : List Nat) (bits : Bits) :
    Option (List Nat × Bits) :=
  if need = 0 then some (done.reverse, bits)
  else
    match _h : lengthRun? code done.head? bits with
    | none => none
    | some ((length, count), rest) =>
      if count ≤ need then
        wordLengths? code (need - count) (List.replicate count length ++ done) rest
      else none
termination_by bits.remaining
decreasing_by exact remaining_of_lengthRun? _h

def ownCodes? (bits : Bits) : Option ((Code × Code) × Bits) := do
  let (literalCount, bits) ← bits.number? 5
  let (distanceCount, bits) ← bits.number? 5
  let (lengthCount, bits) ← bits.number? 4
  if 286 < literalCount + 257 ∨ 30 < distanceCount + 1 then none
  else
    let (written, bits) ← triples? (lengthCount + 4) bits
    let code ← Code.ofLengths? ((List.range 19).map fun s => written[lengthOrder.idxOf s]?.getD 0)
    let (lengths, bits) ← wordLengths? code (literalCount + 257 + (distanceCount + 1)) [] bits
    let literals ← Code.ofLengths? (lengths.take (literalCount + 257))
    let distances ← Code.ofLengths? (lengths.drop (literalCount + 257))
    return ((literals, distances), bits)

def fixedLiteralLengths : List Nat :=
  List.replicate 144 8 ++ List.replicate 112 9 ++ List.replicate 24 7 ++ List.replicate 8 8

def fixedDistanceLengths : List Nat := List.replicate 32 5

def fixedCodes? : Option (Code × Code) := do
  return (← Code.ofLengths? fixedLiteralLengths, ← Code.ofLengths? fixedDistanceLengths)

/-! ### Blocks -/

/-- Stored bytes: a length, its complement, and the bytes, starting at a whole byte. -/
def stored? (limit : Nat) (out : Output) (bytes : Bytes) : Option (Output × Bytes) := do
  let (length, rest) ← Bytes.word16? bytes
  let (complement, rest) ← Bytes.word16? rest
  if length.toNat + complement.toNat ≠ 65535 then none
  else
    let (data, rest) ← Bytes.splitAt? length.toNat rest
    if out.size + data.length ≤ limit then return (out ++ data, rest) else none

def block? (limit : Nat) (kind : Nat) (out : Output) (bits : Bits) : Option (Output × Bits) :=
  match kind with
  | 0 => (stored? limit out bits.align).map fun (out, rest) => (out, Bits.ofBytes rest)
  | 1 => fixedCodes?.bind fun (literals, distances) => symbols? limit literals distances out bits
  | 2 =>
    match ownCodes? bits with
    | none => none
    | some ((literals, distances), rest) => symbols? limit literals distances out rest
  | _ => none

theorem remaining_of_triples? {n : Nat} {bits rest : Bits} {vs : List Nat}
    (h : triples? n bits = some (vs, rest)) : rest.remaining ≤ bits.remaining := by
  induction n generalizing bits vs with
  | zero =>
    cases h
    exact Nat.le_refl _
  | succ n ih =>
    simp only [triples?] at h
    split at h
    · cases h
    · rename_i hn
      simp only [Option.map_eq_some_iff, Prod.mk.injEq, Prod.exists] at h
      obtain ⟨_, _, ht, _, rfl⟩ := h
      have := Bits.remaining_of_number? hn
      have := ih ht
      omega

theorem remaining_of_wordLengths? {code : Code} {need : Nat} {done ls : List Nat} {bits rest : Bits}
    (h : wordLengths? code need done bits = some (ls, rest)) :
    rest.remaining ≤ bits.remaining := by
  fun_induction wordLengths? code need done bits with
  | case1 =>
    cases h
    exact Nat.le_refl _
  | case2 => cases h
  | case3 need done bits _ length count rest' hr _ ih =>
    have := remaining_of_lengthRun? hr
    have := ih h
    omega
  | case4 => cases h

theorem remaining_of_ownCodes? {bits rest : Bits} {codes : Code × Code}
    (h : ownCodes? bits = some (codes, rest)) : rest.remaining ≤ bits.remaining := by
  simp only [ownCodes?, Option.bind_eq_bind, Option.bind_eq_some_iff, Prod.exists] at h
  obtain ⟨_, _, h1, _, _, h2, _, _, h3, h⟩ := h
  split at h
  · cases h
  · simp only [Option.bind_eq_some_iff, Option.pure_def, Option.some.injEq, Prod.mk.injEq,
      Prod.exists] at h
    obtain ⟨_, _, h4, _, _, _, _, h5, _, _, _, _, _, rfl⟩ := h
    have e1 := Bits.remaining_of_number? h1
    have e2 := Bits.remaining_of_number? h2
    have e3 := Bits.remaining_of_number? h3
    have e4 := remaining_of_triples? h4
    have e5 := remaining_of_wordLengths? h5
    omega

theorem length_of_stored? {limit : Nat} {out out' : Output} {bytes rest : Bytes}
    (h : stored? limit out bytes = some (out', rest)) : rest.length ≤ bytes.length := by
  have word : ∀ {bs tail : Bytes} {v : UInt16},
      Bytes.word16? bs = some (v, tail) → tail.length ≤ bs.length := by
    intro bs tail v hw
    unfold Bytes.word16? at hw
    split at hw
    · cases hw
      simp only [List.length_cons]
      omega
    · cases hw
  simp only [stored?, Option.bind_eq_bind, Option.bind_eq_some_iff, Prod.exists] at h
  obtain ⟨_, _, h1, _, _, h2, h⟩ := h
  split at h
  · cases h
  · simp only [Option.bind_eq_some_iff, Prod.exists] at h
    obtain ⟨_, _, h3, h⟩ := h
    split at h
    · cases h
      have e1 := word h1
      have e2 := word h2
      obtain ⟨_, e3⟩ := Bytes.splitAt?_eq_some_iff.1 h3
      have e3 := congrArg List.length e3
      simp only [List.length_append] at e3
      omega
    · cases h

theorem remaining_of_block? {limit kind : Nat} {out out' : Output} {bits rest : Bits}
    (h : block? limit kind out bits = some (out', rest)) : rest.remaining ≤ bits.remaining := by
  unfold block? at h
  split at h
  · simp only [Option.map_eq_some_iff, Prod.mk.injEq, Prod.exists] at h
    obtain ⟨_, _, hs, _, rfl⟩ := h
    have e1 := length_of_stored? hs
    have e2 := Bits.length_align_le bits
    simp only [Bits.ofBytes, Bits.remaining] at *
    omega
  · simp only [Option.bind_eq_some_iff] at h
    obtain ⟨_, _, h⟩ := h
    exact remaining_of_symbols? h
  · split at h
    · cases h
    · rename_i ho
      exact Nat.le_trans (remaining_of_symbols? h) (remaining_of_ownCodes? ho)
  · cases h

def blocks? (limit : Nat) (out : Output) (bits : Bits) : Option (Output × Bits) :=
  match _h1 : bits.number? 1 with
  | none => none
  | some (last, rest1) =>
    match _h2 : rest1.number? 2 with
    | none => none
    | some (kind, rest2) =>
      match _h3 : block? limit kind out rest2 with
      | none => none
      | some (out', rest3) => if last = 1 then some (out', rest3) else blocks? limit out' rest3
termination_by bits.remaining
decreasing_by
  have := Bits.remaining_of_number? _h1
  have := Bits.remaining_of_number? _h2
  have := remaining_of_block? _h3
  omega

end DialGraphics.Deflate
