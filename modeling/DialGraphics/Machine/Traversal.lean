import DialGraphics.Draw.Image
import DialGraphics.Draw.Sequence
import DialGraphics.Machine.Basic

/-!
# Walks over stored items in machine words

There are two ways to see what is stored: a view is read, and a slot is a stretch of bytes that may
be written to. Views are given by a walk that counts down, and are visited with a word that counts
up. The slot of one item is reached by cutting off the items before it, and all slots are visited by
a loop of their own.
-/

namespace DialGraphics.Machine

open Draw

/-! ### Walks -/

section

variable {α σ : Type} (parse : Bytes → Checked (Option (α × Bytes)))

/-- The item at a 0-based position of a walk. A walk also ends at bytes that are no item. -/
def nth : Nat → Nat → Bytes → Checked (Option α)
  | 0, _, _ => .ok none
  | remaining + 1, index, bytes => do
    let parsed ← parse bytes
    match parsed, index with
    | none, _ => .ok none
    | some (item, _), 0 => .ok (some item)
    | some (_, rest), index + 1 => nth remaining index rest

/-- Visits the items of a walk that has given `i` items, for as long as `op` says to go on. -/
def forEach (op : Nat → α → σ → Bool × σ) : Nat → Nat → Bytes → σ → Checked (Bool × σ)
  | 0, _, _, s => .ok (true, s)
  | remaining + 1, i, bytes, s => do
    let parsed ← parse bytes
    match parsed with
    | none => .ok (true, s)
    | some (item, rest) => do
      let place ← add 16 (i % 2 ^ 16) 1
      match op place item s with
      | (false, s) => .ok (false, s)
      | (true, s) => forEach op remaining (i + 1) rest s

end

/-- The bytes behind `n` items. -/
def skip (size? : Bytes → Option Nat) : Nat → Bytes → Checked (Option Bytes)
  | 0, bytes => .ok (some bytes)
  | n + 1, bytes =>
    match size? bytes with
    | none => .ok none
    | some size => do
      let rest ← sliceFrom bytes size
      skip size? n rest

/-! ### Records -/

/-- A record as a header and points, whose number is not checked again. -/
def recordOf? (header points : Bytes) : Option Record :=
  match header with
  | [kind, flags, stroke, width, fill, o0, o1, n0, n1] =>
    (Kind.ofNumber? kind).map fun kind =>
      ⟨kind, flags, ⟨stroke⟩, width, ⟨fill⟩, Bytes.word16 o0 o1, Bytes.word16 n0 n1, points⟩
  | _ => none

def parseRecord (bytes : Bytes) : Checked (Option (Record × Bytes)) :=
  match recordSize? bytes with
  | none => .ok none
  | some size => do
    let (record, rest) ← splitAt bytes size
    let parts ← pull? recordHeaderSize record
    match parts with
    | none => .ok none
    | some (header, points) => .ok ((recordOf? header points).map (·, rest))

def parseRecordSlot (bytes : Bytes) : Checked (Option (Bytes × Bytes)) :=
  match recordSize? bytes with
  | none => .ok none
  | some size => do
    let parts ← splitAt bytes size
    .ok (some parts)

/-- What is read from the slot of a record. -/
def recordView (slot : Bytes) : Checked (Option Record) := do
  let header ← sliceTo slot recordHeaderSize
  let points ← sliceFrom slot recordHeaderSize
  .ok (recordOf? header points)

/-! ### Command lists -/

def parseList (bytes : Bytes) : Checked (Option (CommandList × Bytes)) :=
  match listSize? bytes with
  | none => .ok none
  | some size => do
    let (list, rest) ← splitAt bytes size
    let n0 ← get list 0
    let n1 ← get list 1
    let records ← sliceFrom list countSize
    .ok (some (⟨Bytes.word16 n0 n1, records⟩, rest))

def command? (l : CommandList) (index : Nat) : Checked (Option Record) :=
  nth parseRecord l.count.toNat index l.records

def forEachCommand {σ : Type} (l : CommandList) (op : Nat → Record → σ → Bool × σ) (s : σ) :
    Checked (Bool × σ) :=
  forEach parseRecord op l.count.toNat 0 l.records s

/-- The slot at a 0-based position among `n` records. -/
def recordSlot? (n index : Nat) (bytes : Bytes) : Checked (Option Bytes) := do
  let reached ← skip recordSize? (min index n) bytes
  match reached with
  | none => .ok none
  | some rest =>
    if n ≤ index then .ok none
    else do
      let parsed ← parseRecordSlot rest
      .ok (parsed.map (·.1))

def commandSlot? (l : CommandList) (index : Nat) : Checked (Option Bytes) :=
  recordSlot? l.count.toNat index l.records

/-- Visits the slots of records of which `i` are in front already. Gives the bytes afterwards, and
ends early as well at bytes that are no record. -/
def forEachSlot {σ : Type} (op : Nat → Bytes → σ → Bool × Bytes × σ) :
    Nat → Nat → Bytes → σ → Checked (Bool × Bytes × σ)
  | 0, _, bytes, s => .ok (true, bytes, s)
  | remaining + 1, i, bytes, s => do
    let parsed ← parseRecordSlot bytes
    match parsed with
    | none => .ok (false, bytes, s)
    | some (slot, after) => do
      let place ← add 16 i 1
      match op place slot s with
      | (false, slot, s) => .ok (false, slot ++ after, s)
      | (true, slot, s) => do
        let (done, rest, s) ← forEachSlot op remaining (i + 1) after s
        .ok (done, slot ++ rest, s)

def forEachCommandSlot {σ : Type} (l : CommandList) (op : Nat → Bytes → σ → Bool × Bytes × σ)
    (s : σ) : Checked (Bool × Bytes × σ) :=
  forEachSlot op l.count.toNat 0 l.records s

/-- The commands of an image that may be written to. -/
def commandsSlot? (i : Image) : Option CommandList :=
  if i.backing.isMapped ∨ i.toBytes.length < prologueSize then none
  else some (.ofChecked (i.toBytes.drop prologueSize))

/-! ### Frames -/

structure FrameSlot where
  duration : Bytes
  commands : CommandList

def parseFrame (bytes : Bytes) : Checked (Option (Frame × Bytes)) := do
  let parts ← pull? durationSize bytes
  match parts with
  | some ([d0, d1], rest) => do
    let parsed ← parseList rest
    .ok (parsed.map fun (commands, rest) => (⟨Bytes.word16 d0 d1, commands⟩, rest))
  | _ => .ok none

def parseFrameSlot (bytes : Bytes) : Checked (Option (FrameSlot × Bytes)) :=
  if bytes.length < durationSize then .ok none
  else do
    let (duration, rest) ← splitAt bytes durationSize
    let parsed ← parseList rest
    .ok (parsed.map fun (commands, rest) => (⟨duration, commands⟩, rest))

/-- What is read from the slot of a frame. -/
def frameView (slot : FrameSlot) : Checked Frame := do
  let d0 ← get slot.duration 0
  let d1 ← get slot.duration 1
  .ok ⟨Bytes.word16 d0 d1, slot.commands⟩

def frame? (s : Sequence) (index : Nat) : Checked (Option Frame) :=
  nth parseFrame s.frameCount.toNat index (s.toBytes.drop Sequence.headerSize)

def forEachFrame {σ : Type} (s : Sequence) (op : Nat → Frame → σ → Bool × σ) (state : σ) :
    Checked (Bool × σ) :=
  forEach parseFrame op s.frameCount.toNat 0 (s.toBytes.drop Sequence.headerSize) state

/-- The slot behind `index` frames. -/
def frameSlotBehind? (index : Nat) (bytes : Bytes) : Checked (Option FrameSlot) := do
  let reached ← skip frameSize? index bytes
  match reached with
  | none => .ok none
  | some rest => do
    let parsed ← parseFrameSlot rest
    .ok (parsed.map (·.1))

def frameSlot? (s : Sequence) (index : Nat) : Checked (Option FrameSlot) :=
  if s.frameCount.toNat ≤ index then .ok none
  else if s.backing.isMapped ∨ s.toBytes.length < Sequence.headerSize then .ok none
  else frameSlotBehind? index (s.toBytes.drop Sequence.headerSize)

end DialGraphics.Machine
