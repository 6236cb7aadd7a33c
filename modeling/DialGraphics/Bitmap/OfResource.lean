import DialGraphics.Bitmap.OfPng
import DialGraphics.Resource.Map
import DialGraphics.Tag

/-!
# Bitmaps from resources

A raw bitmap is used where it is: the view of a mapped resource narrows past the header, and a heap
copy gives up its header and is aligned. A PNG is decoded, and its resource given back.
-/

namespace DialGraphics.Bitmap

def pixelAlignment : Nat := 4

def pixelsOfRaw (r : ResourceBytes) : ResourceBytes :=
  match r.advance RawLayout.headerSize with
  | .heap copy => .heap (copy.align pixelAlignment).2
  | view => view

def ofRawResource (r : ResourceBytes) (platform : Platform) : Except DecodeError Bitmap := do
  let layout ← RawLayout.parse r.toBytes platform
  if layout.totalLength ≠ r.toBytes.length then throw .malformed
  ofLayout (.resource (pixelsOfRaw r)) layout

def ofResource (m : ResourceMap) (key : ResourceKey) (platform : Platform) :
    Except DecodeError Bitmap × ResourceMap :=
  match m.load key true with
  | (.error e, m) => (.error e, m)
  | (.ok r, m) =>
    if isPng r.toBytes then (ofPng r.toBytes platform, m.release r)
    else
      match ofRawResource r platform with
      | .error e => (.error e, m.release r)
      | .ok b => (.ok b, m)

end DialGraphics.Bitmap
