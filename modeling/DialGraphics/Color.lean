/-!
# Colours

The display's own colour packs two bits each of alpha, red, green and blue into one byte, highest
first. Decoded images have eight bits per channel; the conversion keeps the top two.
-/

namespace DialGraphics

structure Rgba where
  r : UInt8
  g : UInt8
  b : UInt8
  a : UInt8
  deriving DecidableEq, Repr, Inhabited

namespace Rgba

def transparent : Rgba := ⟨0, 0, 0, 0⟩

def gray (y : UInt8) : Rgba := ⟨y, y, y, 255⟩

/-- Whether a colour is drawn white in a 1-bit image: it is mostly transparent, or its weighted
brightness is at least half. -/
def isLight (c : Rgba) : Bool :=
  c.a < 128 || 128 ≤ (c.r.toNat * 299 + c.g.toNat * 587 + c.b.toNat * 114) / 1000

end Rgba

structure Color where
  argb : UInt8
  deriving DecidableEq, Repr, Inhabited

namespace Color

def clear : Color := ⟨0b00000000⟩

def black : Color := ⟨0b11000000⟩

def white : Color := ⟨0b11111111⟩

/-- Packs the two low bits of each channel. -/
def ofChannels (a r g b : UInt8) : Color :=
  ⟨(a &&& 3) <<< 6 ||| (r &&& 3) <<< 4 ||| (g &&& 3) <<< 2 ||| (b &&& 3)⟩

def alpha (c : Color) : UInt8 := c.argb >>> 6

def isTransparent (c : Color) : Bool := c.alpha == 0

def ofGray (y a : UInt8) : Color := ofChannels (a >>> 6) (y >>> 6) (y >>> 6) (y >>> 6)

def ofRgba (c : Rgba) : Color := ofChannels (c.a >>> 6) (c.r >>> 6) (c.g >>> 6) (c.b >>> 6)

end Color

end DialGraphics
