import DialGraphics.Color
import DialGraphics.Resource.Map

/-!
# Where pixels and palettes live

The pixels of a bitmap belong to it, or are lent to it by somebody else. A loan that may be written
to goes back to its owner with the bytes it has by then.
-/

namespace DialGraphics

/-- Where the pixels of a bitmap are. -/
inductive PixelSource
  | resource (bytes : ResourceBytes)
  | owned (bytes : Bytes)
  | borrowed (bytes : Bytes)
  | loaned (bytes : Bytes)

namespace PixelSource

def toBytes : PixelSource → Bytes
  | .resource r => r.toBytes
  | .owned bytes | .borrowed bytes | .loaned bytes => bytes

def isWritable : PixelSource → Bool
  | .resource r => !r.isMapped
  | .owned _ | .loaned _ => true
  | .borrowed _ => false

def isOwned : PixelSource → Bool
  | .resource _ | .owned _ => true
  | .borrowed _ | .loaned _ => false

def isHeapAllocated : PixelSource → Bool
  | .resource r => !r.isMapped
  | .owned _ => true
  | .borrowed _ | .loaned _ => false

def isMapped : PixelSource → Bool
  | .resource r => r.isMapped
  | _ => false

def mappedKey? : PixelSource → Option ResourceKey
  | .resource r => r.mappedKey?
  | _ => none

def replace (p : PixelSource) (bytes : Bytes) : PixelSource :=
  match p with
  | .resource r => .resource (r.replace bytes)
  | .owned _ => .owned bytes
  | .borrowed old => .borrowed old
  | .loaned _ => .loaned bytes

end PixelSource

inductive Palette
  | owned (colors : List Color)
  | borrowed (colors : List Color)
  deriving DecidableEq, Repr

def Palette.colors : Palette → List Color
  | .owned colors | .borrowed colors => colors

/-- Where the palette of a bitmap is. -/
inductive PaletteSource
  | absent
  | given (palette : Palette)
  /-- Inside the pixel bytes, from this position on. -/
  | trailing (offset : Nat)
  deriving DecidableEq, Repr

/-- The palette as a view of the bitmap sees it. -/
def PaletteSource.lend : PaletteSource → PaletteSource
  | .given palette => .given (.borrowed palette.colors)
  | other => other

end DialGraphics
