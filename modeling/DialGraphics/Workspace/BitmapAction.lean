import DialGraphics.Bitmap.Create

/-!
# What can be done with a bitmap

The operations on a bitmap that is held somewhere, as values, so that one can speak of every
sequence of them. Operations on a part of a bitmap are sequences of their own; what a writable part
did to its pixels is in the whole bitmap afterwards.
-/

namespace DialGraphics

inductive PixelOrigin
  | owned
  | borrowed
  | loaned
  | heapResource
  deriving DecidableEq, Repr

def PixelOrigin.source (o : PixelOrigin) (bytes : Bytes) : PixelSource :=
  match o with
  | .owned => .owned bytes
  | .borrowed => .borrowed bytes
  | .loaned => .loaned bytes
  | .heapResource => .resource (.heap (.ofBytes 0 bytes))

inductive BitmapAction
  | describe
  | row (y : Int)
  | setBounds (bounds : Rect)
  | write (pos : Nat) (value : UInt8)
  | writeColor (index : Nat) (color : Color)
  | setPalette (palette : Palette)
  | setData (origin : PixelOrigin) (bytes : Bytes) (format : PixelFormat) (rowSize : UInt16)
  | palettize
  /-- Operations on a read-only part. -/
  | sub (rect : Rect) (actions : List BitmapAction)
  /-- Operations on a writable part. -/
  | subWritable (rect : Rect) (actions : List BitmapAction)

inductive BitmapAnswer
  | bitmap (b : Bitmap)
  | row (info : Option Bitmap.RowInfo)
  | outcome (result : Except DecodeError Unit)
  | written (done : Bool)
  | done
  | replaced (result : Except DecodeError Unit) (isOwned isHeapAllocated : Bool)
  | made (result : Except DecodeError Bitmap)
  | part (answers : Option (List BitmapAnswer))
  /-- The part has no bounds, since clipping is undefined. -/
  | undefinedPart

/-- A bitmap with the storage that it has given up so far, first one first. -/
structure HeldBitmap where
  bitmap : Bitmap
  displaced : List PixelSource := []

namespace HeldBitmap

def firstStorage (h : HeldBitmap) : Bytes :=
  match h.displaced with
  | first :: _ => first.toBytes
  | [] => h.bitmap.pixels.toBytes

def attempt (h : HeldBitmap) (b : Option Bitmap) : BitmapAnswer × HeldBitmap :=
  match b with
  | some b => (.written true, { h with bitmap := b })
  | none => (.written false, h)

def setBounds (h : HeldBitmap) (bounds : Rect) : Except DecodeError Unit × HeldBitmap :=
  match h.bitmap.setBounds bounds with
  | .ok b => (.ok (), { h with bitmap := b })
  | .error e => (.error e, h)

def setData (h : HeldBitmap) (pixels : PixelSource) (format : PixelFormat) (rowSize : UInt16) :
    Except DecodeError Unit × HeldBitmap :=
  match h.bitmap.setData pixels format rowSize with
  | .ok (b, old) => (.ok (), ⟨b, h.displaced ++ [old]⟩)
  | .error e => (.error e, h)

def lendPart (h : HeldBitmap) (rect : Rect)
    (actions : HeldBitmap → List BitmapAnswer × HeldBitmap) : BitmapAnswer × HeldBitmap :=
  match h.bitmap.subBitmap? rect with
  | none => (.undefinedPart, h)
  | some part => (.part (some (actions ⟨part, []⟩).1), h)

/-- Lends a writable part to operations, and takes back what they made of its pixels. -/
def lendWritablePart (h : HeldBitmap) (rect : Rect)
    (actions : HeldBitmap → List BitmapAnswer × HeldBitmap) : BitmapAnswer × HeldBitmap :=
  match rect.clip? h.bitmap.bounds with
  | none => (.undefinedPart, h)
  | some bounds =>
    match h.bitmap.writableView? bounds with
    | none => (.part none, h)
    | some part =>
      let (answers, part) := actions ⟨part, []⟩
      (.part (some answers), { h with bitmap := h.bitmap.takeBack part.firstStorage })

end HeldBitmap

mutual

def BitmapAction.run (a : BitmapAction) (h : HeldBitmap) : BitmapAnswer × HeldBitmap :=
  match a with
  | .describe => (.bitmap h.bitmap, h)
  | .row y => (.row (h.bitmap.row? y), h)
  | .setBounds bounds =>
    let (result, h) := h.setBounds bounds
    (.outcome result, h)
  | .write pos value => h.attempt (h.bitmap.write? pos value)
  | .writeColor index color => h.attempt (h.bitmap.writeColor? index color)
  | .setPalette palette => (.done, { h with bitmap := h.bitmap.setPalette palette })
  | .setData origin bytes format rowSize =>
    let source := origin.source bytes
    let (result, h) := h.setData source format rowSize
    (.replaced result source.isOwned source.isHeapAllocated, h)
  | .palettize => (.made h.bitmap.toPalettized, h)
  | .sub rect actions => h.lendPart rect (runAll actions)
  | .subWritable rect actions => h.lendWritablePart rect (runAll actions)

def BitmapAction.runAll (actions : List BitmapAction) (h : HeldBitmap) :
    List BitmapAnswer × HeldBitmap :=
  match actions with
  | [] => ([], h)
  | a :: actions =>
    let (answer, h) := a.run h
    let (answers, h) := runAll actions h
    (answer :: answers, h)

end

end DialGraphics
