import DialGraphics.Deflate.Bits

/-!
# Canonical codes

A code gives each symbol a word of up to fifteen bits. Words of one length are consecutive numbers
in the order of their symbols, and shorter words come first, so the lengths alone determine the
code. Every word has to be used, unless there is at most one symbol. The word of a lone symbol is
all zeros; where it is long, a one far enough into it ends a word as well.
-/

namespace DialGraphics.Deflate

/-- A canonical code. -/
inductive Code where
  /-- No symbol has a word. -/
  | empty
  /-- One symbol, whose word is as many zeros as `length` says. -/
  | lone (length symbol : Nat)
  /-- Every word is used. `counts` has the number of words of one bit, two bits, and so on;
  `symbols` has those with shorter words first, in ascending order within a length. -/
  | full (counts : List Nat) (symbols : Array Nat)

namespace Code

/-- The longest word in bits. -/
def maxLength : Nat := 15

def symbolsOfLength (lengths : List Nat) (length : Nat) : List Nat :=
  lengths.zipIdx.filterMap fun (l, symbol) => if l = length then some symbol else none

/-- The number of words that are still free after the given counts, when `free` are free before the
first of them. `none` if there are too many words. -/
def unused? (free : Nat) : List Nat → Option Nat
  | [] => some free
  | count :: counts => if count ≤ 2 * free then unused? (2 * free - count) counts else none

def ofLengths? (lengths : List Nat) : Option Code :=
  let groups := (List.range' 1 maxLength).map (symbolsOfLength lengths)
  match groups.flatten with
  | [] => some .empty
  | [symbol] => some (.lone (lengths[symbol]?.getD 0) symbol)
  | symbols =>
    let counts := groups.map List.length
    if unused? 1 counts = some 0 then some (.full counts symbols.toArray) else none

/-- How many zeros of a lone symbol's word have to come before a one can end a word. -/
def zerosBeforeOne : Nat := 10

/-- Reads the word of a lone symbol, of which `done` zeros are read and `n` are left. A one stands
for symbol `0` if it comes late enough, and is no word if it comes earlier. -/
def readLone? (symbol done : Nat) : Nat → Bits → Option (Nat × Bits)
  | 0, _ => none
  | n + 1, bits =>
    match bits.bit? with
    | none => none
    | some (bit, rest) =>
      if bit = 0 then
        if n = 0 then some (symbol, rest) else readLone? symbol (done + 1) n rest
      else if zerosBeforeOne ≤ done then some (0, rest)
      else none

/-- Reads the bits of a word one by one. `word` is the value of the bits so far, `first` the first
word of the current length, and `index` the place of its symbol. -/
def readFrom? (symbols : Array Nat) (word first index : Nat) : List Nat → Bits → Option (Nat × Bits)
  | [], _ => none
  | count :: counts, bits =>
    match bits.bit? with
    | none => none
    | some (bit, rest) =>
      let word := word + bit
      if word < first + count then (symbols[index + (word - first)]?).map (·, rest)
      else
        readFrom? symbols (2 * word) (2 * (first + count)) (index + count) counts rest

/-- The symbol whose word comes next. `none` if the bits run out or are no word. -/
def read? (code : Code) (bits : Bits) : Option (Nat × Bits) :=
  match code with
  | .empty => none
  | .lone length symbol => readLone? symbol 0 length bits
  | .full counts symbols => readFrom? symbols 0 0 0 counts bits

theorem remaining_of_readLone? {symbol done n : Nat} {bits rest : Bits} {s : Nat}
    (h : readLone? symbol done n bits = some (s, rest)) : rest.remaining < bits.remaining := by
  induction n generalizing done bits with
  | zero => simp [readLone?] at h
  | succ n ih =>
    simp only [readLone?] at h
    split at h
    · cases h
    · rename_i hb
      have h1 := Bits.remaining_of_bit? hb
      split at h
      · split at h
        · cases h
          omega
        · have h2 := ih h
          omega
      · split at h
        · cases h
          omega
        · cases h

theorem remaining_of_readFrom? {symbols : Array Nat} {word first index : Nat} {counts : List Nat}
    {bits rest : Bits} {s : Nat}
    (h : readFrom? symbols word first index counts bits = some (s, rest)) :
    rest.remaining < bits.remaining := by
  induction counts generalizing word first index bits with
  | nil => simp [readFrom?] at h
  | cons count counts ih =>
    simp only [readFrom?] at h
    split at h
    · cases h
    · rename_i hb
      have h1 := Bits.remaining_of_bit? hb
      split at h
      · simp only [Option.map_eq_some_iff, Prod.mk.injEq] at h
        obtain ⟨_, _, _, rfl⟩ := h
        omega
      · have h2 := ih h
        omega

theorem remaining_of_read? {code : Code} {bits rest : Bits} {s : Nat}
    (h : code.read? bits = some (s, rest)) : rest.remaining < bits.remaining := by
  cases code with
  | empty => cases h
  | lone length symbol => exact remaining_of_readLone? h
  | full counts symbols => exact remaining_of_readFrom? h

end Code

end DialGraphics.Deflate
