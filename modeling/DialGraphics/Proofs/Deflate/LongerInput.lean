import DialGraphics.Proofs.Deflate.Stored

/-!
# More bytes behind a stream

A reader that finds what it looks for finds the same if more bytes follow, and leaves them behind.
This goes from a single bit up to all blocks of a stream, so that what follows a whole stream never
changes what is in it.
-/

namespace DialGraphics

namespace Bytes

theorem word16?_append {bytes rest : Bytes} {v : UInt16} (h : word16? bytes = some (v, rest))
    (tail : Bytes) : word16? (bytes ++ tail) = some (v, rest ++ tail) := by
  unfold word16? at h
  split at h
  · cases h
    rfl
  · cases h

theorem splitAt?_append {n : Nat} {bytes head rest : Bytes}
    (h : splitAt? n bytes = some (head, rest)) (tail : Bytes) :
    splitAt? n (bytes ++ tail) = some (head, rest ++ tail) := by
  obtain ⟨hlength, rfl⟩ := splitAt?_eq_some_iff.1 h
  exact splitAt?_eq_some_iff.2 ⟨hlength, List.append_assoc ..⟩

end Bytes

namespace Deflate

namespace Bits

def append (b : Bits) (tail : Bytes) : Bits := { b with bytes := b.bytes ++ tail }

theorem ofBytes_append (bytes tail : Bytes) :
    ofBytes (bytes ++ tail) = (ofBytes bytes).append tail := rfl

theorem bit?_append {b rest : Bits} {v : Nat} (h : b.bit? = some (v, rest)) (tail : Bytes) :
    (b.append tail).bit? = some (v, rest.append tail) := by
  obtain ⟨bytes, used, hused⟩ := b
  cases bytes with
  | nil => cases h
  | cons byte bytes =>
    show bit? ⟨byte :: (bytes ++ tail), used, hused⟩ = _
    by_cases hnext : used + 1 < 8
    · simp only [bit?, dif_pos hnext, Option.some.injEq, Prod.mk.injEq] at h ⊢
      obtain ⟨hv, rfl⟩ := h
      exact ⟨hv, rfl⟩
    · simp only [bit?, dif_neg hnext, Option.some.injEq, Prod.mk.injEq] at h ⊢
      obtain ⟨hv, rfl⟩ := h
      exact ⟨hv, rfl⟩

theorem number?_append {n : Nat} {b rest : Bits} {v : Nat} (h : number? n b = some (v, rest))
    (tail : Bytes) : number? n (b.append tail) = some (v, rest.append tail) := by
  induction n generalizing b rest v with
  | zero =>
    cases h
    rfl
  | succ n ih =>
    simp only [number?] at h ⊢
    split at h
    · cases h
    · rename_i hb
      split at h
      · cases h
      · rename_i hn
        cases h
        simp only [bit?_append hb tail, ih hn]

/-- A partly read byte that is not there has no bytes behind it. -/
theorem align_append {b : Bits} (h : b.align ≠ []) (tail : Bytes) :
    (b.append tail).align = b.align ++ tail := by
  obtain ⟨bytes, used, hused⟩ := b
  show align ⟨bytes ++ tail, used, hused⟩ = _
  unfold align at h ⊢
  simp only at h ⊢
  by_cases hwhole : used = 0
  · rw [if_pos hwhole, if_pos hwhole]
  · rw [if_neg hwhole] at h
    rw [if_neg hwhole, if_neg hwhole]
    cases bytes with
    | nil => exact absurd rfl h
    | cons byte bytes => rfl

end Bits

/-! ### Words of a code -/

namespace Code

theorem readLone?_append {symbol done n : Nat} {bits rest : Bits} {s : Nat}
    (h : readLone? symbol done n bits = some (s, rest)) (tail : Bytes) :
    readLone? symbol done n (bits.append tail) = some (s, rest.append tail) := by
  induction n generalizing done bits with
  | zero => cases h
  | succ n ih =>
    simp only [readLone?] at h ⊢
    split at h
    · cases h
    · rename_i hb
      simp only [Bits.bit?_append hb tail]
      split at h
      · split at h
        · cases h
          rw [if_pos ‹_›, if_pos ‹_›]
        · rw [if_pos ‹_›, if_neg ‹_›]
          exact ih h
      · rw [if_neg ‹_›]
        split at h
        · cases h
          rw [if_pos ‹_›]
        · cases h

theorem readFrom?_append {symbols : Array Nat} {word first index : Nat} {counts : List Nat}
    {bits rest : Bits} {s : Nat}
    (h : readFrom? symbols word first index counts bits = some (s, rest)) (tail : Bytes) :
    readFrom? symbols word first index counts (bits.append tail) = some (s, rest.append tail) := by
  induction counts generalizing word first index bits with
  | nil => cases h
  | cons count counts ih =>
    simp only [readFrom?] at h ⊢
    split at h
    · cases h
    · rename_i hb
      simp only [Bits.bit?_append hb tail]
      split at h
      · rw [if_pos ‹_›]
        simp only [Option.map_eq_some_iff, Prod.mk.injEq] at h
        obtain ⟨_, hsymbol, rfl, rfl⟩ := h
        rw [hsymbol]
        rfl
      · rw [if_neg ‹_›]
        exact ih h

theorem read?_append {code : Code} {bits rest : Bits} {s : Nat}
    (h : code.read? bits = some (s, rest)) (tail : Bytes) :
    code.read? (bits.append tail) = some (s, rest.append tail) := by
  cases code with
  | empty => cases h
  | lone length symbol => exact readLone?_append h tail
  | full counts symbols => exact readFrom?_append h tail

end Code

/-! ### Symbols -/

theorem map_number?_append {α : Type} {n : Nat} {f : Nat → α} {bits rest : Bits} {a : α}
    (h : (bits.number? n).map (fun (v, rest) => (f v, rest)) = some (a, rest)) (tail : Bytes) :
    ((bits.append tail).number? n).map (fun (v, rest) => (f v, rest))
      = some (a, rest.append tail) := by
  simp only [Option.map_eq_some_iff, Prod.mk.injEq, Prod.exists] at h
  obtain ⟨v, _, hn, rfl, rfl⟩ := h
  rw [Bits.number?_append hn tail]
  rfl

theorem entryValue?_append {entry : Option (Nat × Nat)} {v : Nat} {bits rest : Bits}
    (h : entryValue? entry bits = some (v, rest)) (tail : Bytes) :
    entryValue? entry (bits.append tail) = some (v, rest.append tail) := by
  cases entry with
  | none => cases h
  | some entry => exact map_number?_append h tail

theorem Copy.read?_append {distances : Code} {symbol : Nat} {bits rest : Bits} {c : Copy}
    (h : Copy.read? distances symbol bits = some (c, rest)) (tail : Bytes) :
    Copy.read? distances symbol (bits.append tail) = some (c, rest.append tail) := by
  simp only [Copy.read?] at h ⊢
  split at h
  · cases h
  · rename_i hlength
    simp only [entryValue?_append hlength tail]
    split at h
    · cases h
    · rename_i hindex
      simp only [Code.read?_append hindex tail]
      simp only [Option.map_eq_some_iff, Prod.mk.injEq, Prod.exists] at h
      obtain ⟨_, _, hdistance, rfl, rfl⟩ := h
      rw [entryValue?_append hdistance tail]
      rfl

theorem symbols?_eq (limit : Nat) (literals distances : Code) (out : Output) (bits : Bits) :
    symbols? limit literals distances out bits
      = match literals.read? bits with
        | none => none
        | some (symbol, rest) =>
          if symbol < 256 then
            if out.size < limit then
              symbols? limit literals distances (out.push (UInt8.ofNat symbol)) rest
            else none
          else if symbol = 256 then some (out, rest)
          else
            match Copy.read? distances symbol rest with
            | none => none
            | some (copy, rest) =>
              if copy.distance ≤ out.size ∧ out.size + copy.length ≤ limit then
                symbols? limit literals distances (copyBack copy.distance copy.length out) rest
              else none := by
  rw [symbols?]
  split
  · rename_i hr
    rw [hr]
  · rename_i symbol rest hr
    rw [hr]
    simp only
    split
    · rfl
    · split
      · rfl
      · split
        · rename_i hc
          rw [hc]
        · rename_i hc
          rw [hc]

theorem symbols?_append {limit : Nat} {literals distances : Code} {out out' : Output}
    {bits rest : Bits} (h : symbols? limit literals distances out bits = some (out', rest))
    (tail : Bytes) :
    symbols? limit literals distances out (bits.append tail) = some (out', rest.append tail) := by
  fun_induction symbols? limit literals distances out bits with
  | case1 => cases h
  | case2 out bits symbol rest' hr hsymbol hroom ih =>
    rw [symbols?_eq, Code.read?_append hr tail]
    simp only [if_pos hsymbol, if_pos hroom, ih h]
  | case3 => cases h
  | case4 out bits rest' hr =>
    cases h
    rw [symbols?_eq, Code.read?_append hr tail]
    rfl
  | case5 => cases h
  | case6 out bits symbol rest' hr hbyte hend copy rest'' hc hroom ih =>
    rw [symbols?_eq, Code.read?_append hr tail]
    simp only [if_neg hbyte, if_neg hend, Copy.read?_append hc tail, if_pos hroom, ih h]
  | case7 => cases h

/-! ### Codes of a block -/

theorem triples?_append {n : Nat} {bits rest : Bits} {vs : List Nat}
    (h : triples? n bits = some (vs, rest)) (tail : Bytes) :
    triples? n (bits.append tail) = some (vs, rest.append tail) := by
  induction n generalizing bits vs with
  | zero =>
    cases h
    rfl
  | succ n ih =>
    simp only [triples?] at h ⊢
    split at h
    · cases h
    · rename_i hn
      simp only [Option.map_eq_some_iff, Prod.mk.injEq, Prod.exists] at h
      obtain ⟨_, _, ht, rfl, rfl⟩ := h
      simp only [Bits.number?_append hn tail, ih ht, Option.map_some]

theorem lengthRun?_append {code : Code} {previous : Option Nat} {bits rest : Bits}
    {run : Nat × Nat} (h : lengthRun? code previous bits = some (run, rest)) (tail : Bytes) :
    lengthRun? code previous (bits.append tail) = some (run, rest.append tail) := by
  unfold lengthRun? at h ⊢
  split at h
  · cases h
  · rename_i hr
    rw [Code.read?_append hr tail]
    dsimp only
    split at h
    · cases h
      rw [if_pos ‹_›]
    · rw [if_neg ‹_›]
      split at h
      · rw [if_pos ‹_›]
        split at h
        · cases h
        · exact map_number?_append (f := fun n => (_, 3 + n)) h tail
      · rw [if_neg ‹_›]
        split at h
        · rw [if_pos ‹_›]
          exact map_number?_append (f := fun n => (0, 3 + n)) h tail
        · rw [if_neg ‹_›]
          exact map_number?_append (f := fun n => (0, 11 + n)) h tail

theorem wordLengths?_eq (code : Code) (need : Nat) (done : List Nat) (bits : Bits) :
    wordLengths? code need done bits
      = if need = 0 then some (done.reverse, bits)
        else
          match lengthRun? code done.head? bits with
          | none => none
          | some ((length, count), rest) =>
            if count ≤ need then
              wordLengths? code (need - count) (List.replicate count length ++ done) rest
            else none := by
  rw [wordLengths?]
  split
  · rfl
  · split
    · rename_i hr
      rw [hr]
    · rename_i hr
      rw [hr]

theorem wordLengths?_append {code : Code} {need : Nat} {done ls : List Nat} {bits rest : Bits}
    (h : wordLengths? code need done bits = some (ls, rest)) (tail : Bytes) :
    wordLengths? code need done (bits.append tail) = some (ls, rest.append tail) := by
  fun_induction wordLengths? code need done bits with
  | case1 =>
    cases h
    rw [wordLengths?_eq, if_pos rfl]
  | case2 => cases h
  | case3 need done bits hneed length count rest' hr hcount ih =>
    rw [wordLengths?_eq, if_neg hneed, lengthRun?_append hr tail]
    simp only [if_pos hcount, ih h]
  | case4 => cases h

theorem ownCodes?_append {bits rest : Bits} {codes : Code × Code}
    (h : ownCodes? bits = some (codes, rest)) (tail : Bytes) :
    ownCodes? (bits.append tail) = some (codes, rest.append tail) := by
  simp only [ownCodes?, Option.bind_eq_bind, Option.bind_eq_some_iff, Prod.exists] at h
  obtain ⟨_, _, h1, _, _, h2, _, _, h3, h⟩ := h
  simp only [ownCodes?, Option.bind_eq_bind, Bits.number?_append h1 tail,
    Bits.number?_append h2 tail, Bits.number?_append h3 tail, Option.bind_some]
  split at h
  · cases h
  · rename_i hcounts
    rw [if_neg hcounts]
    simp only [Option.bind_eq_some_iff, Option.pure_def, Option.some.injEq, Prod.mk.injEq,
      Prod.exists] at h
    obtain ⟨_, _, h4, _, hcode, _, _, h5, _, hliterals, _, hdistances, rfl, rfl⟩ := h
    simp only [triples?_append h4 tail, Option.bind_some, hcode, wordLengths?_append h5 tail,
      hliterals, hdistances, Option.pure_def]

/-! ### Blocks -/

theorem stored?_append_tail {limit : Nat} {out out' : Output} {bytes rest : Bytes}
    (h : stored? limit out bytes = some (out', rest)) (tail : Bytes) :
    stored? limit out (bytes ++ tail) = some (out', rest ++ tail) := by
  simp only [stored?, Option.bind_eq_bind, Option.bind_eq_some_iff, Prod.exists] at h
  obtain ⟨_, _, h1, _, _, h2, h⟩ := h
  simp only [stored?, Option.bind_eq_bind, Bytes.word16?_append h1 tail,
    Bytes.word16?_append h2 tail, Option.bind_some]
  split at h
  · cases h
  · rename_i hcomplement
    rw [if_neg hcomplement]
    simp only [Option.bind_eq_some_iff, Prod.exists] at h
    obtain ⟨_, _, h3, h⟩ := h
    simp only [Bytes.splitAt?_append h3 tail, Option.bind_some]
    split at h
    · cases h
      rw [if_pos ‹_›]
      rfl
    · cases h

theorem stored?_nil (limit : Nat) (out : Output) : stored? limit out [] = none := rfl

theorem block?_append {limit kind : Nat} {out out' : Output} {bits rest : Bits}
    (h : block? limit kind out bits = some (out', rest)) (tail : Bytes) :
    block? limit kind out (bits.append tail) = some (out', rest.append tail) := by
  unfold block? at h ⊢
  split at h
  · simp only [Option.map_eq_some_iff, Prod.mk.injEq, Prod.exists] at h
    obtain ⟨_, _, hs, rfl, rfl⟩ := h
    have hne : bits.align ≠ [] := by
      intro hnil
      rw [hnil, stored?_nil] at hs
      cases hs
    simp only [Bits.align_append hne tail, stored?_append_tail hs tail]
    rfl
  · simp only [Option.bind_eq_some_iff, Prod.exists] at h
    obtain ⟨_, _, hcodes, h⟩ := h
    simp only [hcodes, Option.bind_some]
    exact symbols?_append h tail
  · split at h
    · cases h
    · rename_i ho
      simp only [ownCodes?_append ho tail]
      exact symbols?_append h tail
  · cases h

theorem blocks?_append {limit : Nat} {out out' : Output} {bits rest : Bits}
    (h : blocks? limit out bits = some (out', rest)) (tail : Bytes) :
    blocks? limit out (bits.append tail) = some (out', rest.append tail) := by
  fun_induction blocks? limit out bits with
  | case1 => cases h
  | case2 => cases h
  | case3 => cases h
  | case4 out bits rest1 kind rest2 h2 next rest3 h3 h1 =>
    cases h
    rw [blocks?_of_block? (Bits.number?_append h1 tail) (Bits.number?_append h2 tail)
      (block?_append h3 tail), if_pos rfl]
  | case5 out bits last rest1 h1 kind rest2 h2 next rest3 h3 hlast ih =>
    rw [blocks?_of_block? (Bits.number?_append h1 tail) (Bits.number?_append h2 tail)
      (block?_append h3 tail), if_neg hlast]
    exact ih h

end Deflate

end DialGraphics
