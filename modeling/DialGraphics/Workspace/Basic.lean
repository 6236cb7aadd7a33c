import DialGraphics.Bitmap.OfResource
import DialGraphics.Workspace.BitmapAction
import DialGraphics.Workspace.DrawAction

/-!
# Workspaces

A workspace is a resource map with named slots. A slot holds the bytes of a resource, a heap copy, a
bitmap, an image or a sequence. Every operation is a value, and `perform` does one; it takes care
that what leaves a slot, or is replaced inside a bitmap, gives back the resource that it was a view
of.
-/

namespace DialGraphics

inductive Holding
  | resource (bytes : ResourceBytes)
  | heap (copy : HeapBytes)
  | bitmap (b : Bitmap)
  | image (i : Draw.Image)
  | sequence (s : Draw.Sequence)

def Holding.mappedKey? : Holding → Option ResourceKey
  | .resource r => r.mappedKey?
  | .heap _ => none
  | .bitmap b => b.pixels.mappedKey?
  | .image i => i.backing.mappedKey?
  | .sequence s => s.backing.mappedKey?

/-- A resource map with named slots. -/
structure Workspace where
  map : ResourceMap
  slots : List (String × Holding) := []

namespace Workspace

/-! ### Slots -/

def holding? (w : Workspace) (slot : String) : Option Holding := w.slots.lookup slot

/-- The number of views of a resource that are held in slots. -/
def heldViews (w : Workspace) (key : ResourceKey) : Nat :=
  (w.slots.filter fun s => s.2.mappedKey? = some key).length

def giveBack (w : Workspace) (key : Option ResourceKey) : Workspace :=
  match key with
  | none => w
  | some key => { w with map := { w.map with table := w.map.table.release key } }

def take (w : Workspace) (slot : String) : Workspace :=
  { w with slots := w.slots.filter fun s => s.1 ≠ slot }

def empty (w : Workspace) (slot : String) : Workspace :=
  (w.take slot).giveBack ((w.holding? slot).bind Holding.mappedKey?)

/-- Puts something into a slot in the place of what it held, which keeps counting as it did. -/
def update (w : Workspace) (slot : String) (h : Holding) : Workspace :=
  { w with slots := (slot, h) :: (w.take slot).slots }

def put (w : Workspace) (slot : String) (h : Holding) : Workspace :=
  let w := w.empty slot
  { w with slots := (slot, h) :: w.slots }

/-! ### Operations -/

inductive Action
  | load (slot : String) (key : ResourceKey) (pad : Bool)
  | range (slot : String) (key : ResourceKey) (offset length : Nat) (pad : Bool)
  | bitmap (slot : String) (key : ResourceKey) (platform : Platform)
  | image (slot : String) (key : ResourceKey)
  | sequence (slot : String) (key : ResourceKey)
  | imageOfBytes (slot : String) (bytes : Bytes)
  | sequenceOfBytes (slot : String) (bytes : Bytes)
  | heapOfBytes (slot : String) (bytes : Bytes)
  | bitmapOfRaw (slot : String) (bytes : Bytes) (platform : Platform)
  | bitmapOfPng (slot : String) (bytes : Bytes) (platform : Platform)
  | blank (slot : String) (size : Size) (format : PixelFormat) (platform : Platform)
  | blankWithPalette (slot : String) (size : Size) (format : PixelFormat) (palette : Palette)
      (platform : Platform)
  | copy (slot source : String)
  | palettize (slot source : String)
  /-- A read-only part of a bitmap, in a slot of its own. -/
  | part (slot source : String) (rect : Rect)
  | intoHeap (slot : String)
  | size (key : ResourceKey)
  | viewCount (key : ResourceKey)
  | describe (slot : String)
  | write (slot : String) (pos : Nat) (value : UInt8)
  | advance (slot : String) (n : Nat)
  | align (slot : String) (n : Nat)
  | release (slot : String)
  | drop (slot : String)
  | onBitmap (slot : String) (actions : List BitmapAction)
  | onImage (slot : String) (actions : List ImageAction)
  | onSequence (slot : String) (actions : List SequenceAction)
  | giveData (slot target : String) (format : PixelFormat) (rowSize : UInt16)

inductive Answer
  | holding (h : Holding)
  | failed (e : DecodeError)
  | nothing
  | emptySlot
  | wrongHolding
  | number (n : Nat)
  | flag (b : Bool)
  | bitmapAnswers (answers : List BitmapAnswer)
  | imageAnswers (answers : List ImageAnswer)
  | sequenceAnswers (answers : List SequenceAnswer)
  | given (result : Except DecodeError Unit) (isHeapAllocated : Bool) (b : Bitmap)

def store (w : Workspace) (slot : String) (made : Except DecodeError Holding) :
    Answer × Workspace :=
  match made with
  | .error e => (.failed e, w)
  | .ok h => (.holding h, w.put slot h)

def storeLoaded {α : Type} (w : Workspace) (slot : String) (hold : α → Holding)
    (made : Except DecodeError α × ResourceMap) : Answer × Workspace :=
  { w with map := made.2 }.store slot (made.1.map hold)

/-- Does something with what a slot holds; an empty slot answers for itself. -/
def withSlot (w : Workspace) (slot : String) (f : Holding → Answer × Workspace) :
    Answer × Workspace :=
  match w.holding? slot with
  | none => (.emptySlot, w)
  | some h => f h

def giveData (w : Workspace) (slot target : String) (r : ResourceBytes) (b : Bitmap)
    (format : PixelFormat) (rowSize : UInt16) : Answer × Workspace :=
  let source := PixelSource.resource r
  let w := w.take slot
  match b.setData source format rowSize with
  | .error e =>
    (.given (.error e) source.isHeapAllocated b, w.giveBack source.mappedKey?)
  | .ok (b, old) =>
    (.given (.ok ()) source.isHeapAllocated b,
      (w.update target (.bitmap b)).giveBack old.mappedKey?)

def perform (w : Workspace) : Action → Answer × Workspace
  | .load slot key pad => w.storeLoaded slot .resource (w.map.load key pad)
  | .range slot key offset length pad =>
    match w.map.range? key offset length pad with
    | (none, map) => (.nothing, { w with map })
    | (some r, map) => (.holding (.resource r), { w with map }.put slot (.resource r))
  | .bitmap slot key platform => w.storeLoaded slot .bitmap (Bitmap.ofResource w.map key platform)
  | .image slot key => w.storeLoaded slot .image (Draw.Image.ofResource w.map key)
  | .sequence slot key => w.storeLoaded slot .sequence (Draw.Sequence.ofResource w.map key)
  | .imageOfBytes slot bytes => w.store slot ((Draw.Image.ofBytes bytes).map .image)
  | .sequenceOfBytes slot bytes => w.store slot ((Draw.Sequence.ofBytes bytes).map .sequence)
  | .heapOfBytes slot bytes => w.store slot (.ok (.heap (.ofBytes w.map.heapBase bytes)))
  | .bitmapOfRaw slot bytes platform => w.store slot ((Bitmap.ofRaw bytes platform).map .bitmap)
  | .bitmapOfPng slot bytes platform => w.store slot ((Bitmap.ofPng bytes platform).map .bitmap)
  | .blank slot size format platform =>
    w.store slot ((Bitmap.blank size format platform).map .bitmap)
  | .blankWithPalette slot size format palette platform =>
    w.store slot ((Bitmap.blankWithPalette size format palette platform).map .bitmap)
  | .copy slot source =>
    w.withSlot source fun
      | .image i => w.store slot (.ok (.image i.copy))
      | .sequence s => w.store slot (.ok (.sequence s.copy))
      | _ => (.wrongHolding, w)
  | .palettize slot source =>
    w.withSlot source fun
      | .bitmap b => w.store slot (b.toPalettized.map .bitmap)
      | _ => (.wrongHolding, w)
  | .part slot source rect =>
    w.withSlot source fun
      | .bitmap b =>
        match b.subBitmap? rect with
        | none => (.nothing, w)
        | some part => w.store slot (.ok (.bitmap part))
      | _ => (.wrongHolding, w)
  | .intoHeap slot =>
    w.withSlot slot fun
      | .resource r =>
        let (copy, map) := w.map.intoHeap r
        (.holding (.heap copy), { w with map }.update slot (.heap copy))
      | _ => (.wrongHolding, w)
  | .size key => (.number (w.map.store.size key), w)
  | .viewCount key => (.number (w.map.viewCount key), w)
  | .describe slot => w.withSlot slot fun h => (.holding h, w)
  | .write slot pos value =>
    w.withSlot slot fun
      | .resource r =>
        match r.write? pos value with
        | none => (.flag false, w)
        | some r => (.flag true, w.update slot (.resource r))
      | _ => (.wrongHolding, w)
  | .advance slot n =>
    w.withSlot slot fun
      | .resource r => (.holding (.resource (r.advance n)), w.update slot (.resource (r.advance n)))
      | _ => (.wrongHolding, w)
  | .align slot n =>
    w.withSlot slot fun
      | .resource (.heap copy) =>
        (.flag (copy.align n).1, w.update slot (.resource (.heap (copy.align n).2)))
      | .heap copy => (.flag (copy.align n).1, w.update slot (.heap (copy.align n).2))
      | _ => (.wrongHolding, w)
  | .release slot =>
    w.withSlot slot fun
      | .resource _ => (.nothing, w.empty slot)
      | _ => (.wrongHolding, w)
  | .drop slot => (.flag (w.holding? slot).isSome, w.empty slot)
  | .onBitmap slot actions =>
    w.withSlot slot fun
      | .bitmap b =>
        let (answers, held) := BitmapAction.runAll actions ⟨b, []⟩
        (.bitmapAnswers answers,
          held.displaced.foldl (fun w old => w.giveBack old.mappedKey?)
            (w.update slot (.bitmap held.bitmap)))
      | _ => (.wrongHolding, w)
  | .onImage slot actions =>
    w.withSlot slot fun
      | .image i =>
        let (answers, i) := ImageAction.runAll actions i
        (.imageAnswers answers, w.update slot (.image i))
      | _ => (.wrongHolding, w)
  | .onSequence slot actions =>
    w.withSlot slot fun
      | .sequence s =>
        let (answers, s) := SequenceAction.runAll actions s
        (.sequenceAnswers answers, w.update slot (.sequence s))
      | _ => (.wrongHolding, w)
  | .giveData slot target format rowSize =>
    match w.holding? slot, w.holding? target with
    | none, _ | _, none => (.emptySlot, w)
    | some (.resource r), some (.bitmap b) => w.giveData slot target r b format rowSize
    | _, _ => (.wrongHolding, w)

def performAll (w : Workspace) : List Action → List Answer × Workspace
  | [] => ([], w)
  | a :: actions =>
    let (answer, w) := w.perform a
    let (answers, w) := w.performAll actions
    (answer :: answers, w)

end Workspace

end DialGraphics
