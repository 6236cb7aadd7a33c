import DialGraphics.Draw.Record

/-!
# Command lists

A list is a count and that many records back to back. `size?` checks a list from the front of some
bytes. A view of a list that has been checked walks from record to record without checking again; on
bytes that are no list after all, it just ends early.
-/

namespace DialGraphics.Draw

/-! ### Checking -/

def recordsSize? : Nat → Bytes → Option Nat
  | 0, _ => some 0
  | n + 1, bytes =>
    match Record.read? bytes with
    | none => none
    | some (r, rest) => (recordsSize? n rest).map (r.size + ·)

def countSize : Nat := 2

def listSize? (bytes : Bytes) : Option Nat :=
  match Bytes.word16? bytes with
  | none => none
  | some (count, rest) => (recordsSize? count.toNat rest).map (countSize + ·)

/-! ### Views -/

/-- Visits the items with their 1-based positions for as long as `op` says to go on. Gives whether
it always did, and the state in the end. -/
def visit {α σ : Type} (op : Nat → α → σ → Bool × σ) (position : Nat) : List α → σ → Bool × σ
  | [], s => (true, s)
  | x :: xs, s =>
    match op position x s with
    | (false, s) => (false, s)
    | (true, s) => visit op (position + 1) xs s

structure CommandList where
  count : UInt16
  records : Bytes
  deriving DecidableEq, Repr

namespace CommandList

def ofChecked (bytes : Bytes) : CommandList :=
  match Bytes.word16? bytes with
  | some (count, records) => ⟨count, records⟩
  | none => ⟨0, []⟩

def read? (bytes : Bytes) : Option (CommandList × Bytes) :=
  match listSize? bytes with
  | none => none
  | some n => some (ofChecked (bytes.take n), bytes.drop n)

def size (l : CommandList) : Nat := countSize + l.records.length

def walk : Nat → Bytes → List Record
  | 0, _ => []
  | n + 1, bytes =>
    match Record.read? bytes with
    | none => []
    | some (r, rest) => r :: walk n rest

def toList (l : CommandList) : List Record := walk l.count.toNat l.records

def get? (l : CommandList) (i : Nat) : Option Record := l.toList[i]?

def forEach {σ : Type} (l : CommandList) (op : Nat → Record → σ → Bool × σ) (s : σ) : Bool × σ :=
  visit op 1 l.toList s

def encode (commands : List Command) : Bytes :=
  Bytes.ofWord16 (UInt16.ofNat commands.length) ++ (commands.map Command.encode).flatten

end CommandList

/-! ### Changing in place -/

inductive ListEdit
  | one (index : Nat) (settings : List Setting)
  /-- The same changes to every command, up to the one at the 1-based position `stop`. -/
  | every (stop : Nat) (settings : List Setting)
  /-- To every command, up to the one at the 1-based position `stop`, changes of its own. -/
  | each (stop : Nat) (settings : List (List Setting))
  deriving DecidableEq, Repr

/-- What became of the changes to a list. -/
inductive EditResult
  | absent
  | changed (results : List (Except DecodeError Unit)) (after : Option Record)
  | visited (done : Bool) (results : List (Nat × List (Except DecodeError Unit)))

namespace ListEdit

/-- The place of the record at a 0-based position among `n` records: the bytes before it, its own
bytes, and those after it. -/
def locate? : Nat → Nat → Bytes → Option (Bytes × Bytes × Bytes)
  | 0, _, _ => none
  | n + 1, i, bytes =>
    match recordSize? bytes with
    | none => none
    | some size =>
      let record := bytes.take size
      let rest := bytes.drop size
      match i with
      | 0 => some ([], record, rest)
      | i + 1 =>
        (locate? n i rest).map fun (before, found, after) => (record ++ before, found, after)

/-- Changes the bytes of up to `n` records from position `position` on, for as long as `op` says to
go on. Gives whether every record was reached, the state in the end, and the bytes. -/
def editEach {σ : Type} (op : Nat → Bytes → σ → Bool × Bytes × σ) :
    Nat → Nat → Bytes → σ → Bool × Bytes × σ
  | 0, _, bytes, s => (true, bytes, s)
  | n + 1, position, bytes, s =>
    match recordSize? bytes with
    | none => (false, bytes, s)
    | some size =>
      match op position (bytes.take size) s with
      | (false, record, s) => (false, record ++ bytes.drop size, s)
      | (true, record, s) =>
        let (done, rest, s) := editEach op n (position + 1) (bytes.drop size) s
        (done, record ++ rest, s)

/-- Makes changes to every record, as its 1-based position says, up to the one at `stop`. -/
def visitEach (stop count : Nat) (settings : Nat → List Setting) (records : Bytes) :
    EditResult × Bytes :=
  let op := fun (position : Nat) (record : Bytes)
      (seen : List (Nat × List (Except DecodeError Unit))) =>
    let (results, record) := Setting.applyAll (settings position) record
    (position != stop, record, seen ++ [(position, results)])
  let (done, records, seen) := editEach op count 1 records []
  (.visited done seen, records)

def apply (e : ListEdit) (count : Nat) (records : Bytes) : EditResult × Bytes :=
  match e with
  | .one index settings =>
    match locate? count index records with
    | none => (.absent, records)
    | some (before, record, after) =>
      let (results, record) := Setting.applyAll settings record
      (.changed results ((Record.read? record).map (·.1)), before ++ record ++ after)
  | .every stop settings => visitEach stop count (fun _ => settings) records
  | .each stop settings =>
    visitEach stop count (fun position => settings[position - 1]?.getD []) records

def applyAll (count : Nat) : List ListEdit → Bytes → List EditResult × Bytes
  | [], records => ([], records)
  | e :: edits, records =>
    let (result, records) := e.apply count records
    let (results, records) := applyAll count edits records
    (result :: results, records)

def applyToList (edits : List ListEdit) (bytes : Bytes) : List EditResult × Bytes :=
  let l := CommandList.ofChecked bytes
  let (results, records) := applyAll l.count.toNat edits l.records
  (results, bytes.take countSize ++ records)

/-- Makes changes to the list at the front of some bytes. Gives how they went, the bytes of the list
afterwards, and the bytes behind it. -/
def applyAtFront? (edits : List ListEdit) (bytes : Bytes) :
    Option (List EditResult × Bytes × Bytes) :=
  (listSize? bytes).map fun size =>
    let (results, list) := applyToList edits (bytes.take size)
    (results, list, bytes.drop size)

end ListEdit

end DialGraphics.Draw
