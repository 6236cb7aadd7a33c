import DialGraphics.Draw.Frame
import DialGraphics.Resource.Map
import DialGraphics.Tag

/-!
# Draw command files

A file is a tag, the number of bytes that follow, and those bytes, which start with a version, a
byte that means nothing, and the canvas size. The bytes of a loaded file stay in the resource they
came from.
-/

namespace DialGraphics.Draw

/-! ### The file header -/

def fileHeaderSize : Nat := 8

def filePayload (bytes : Bytes) (tag : Tag) : Except DecodeError Bytes :=
  match Tag.read? bytes with
  | none => .error .malformed
  | some (found, rest) =>
    if found ≠ tag then .error .notThisFormat
    else
      match Bytes.word32? rest with
      | none => .error .malformed
      | some (size, payload) => if size = payload.length then .ok payload else .error .malformed

def encodeFile (tag : Tag) (payload : Bytes) : Bytes :=
  tag.toBytes ++ Bytes.ofWord32 payload.length ++ payload

/-! ### Where the bytes are -/

inductive Backing
  | resource (bytes : ResourceBytes)
  | owned (bytes : Bytes)

namespace Backing

def toBytes : Backing → Bytes
  | .resource r => r.toBytes
  | .owned bytes => bytes

def isMapped : Backing → Bool
  | .resource r => r.isMapped
  | .owned _ => false

def mappedKey? : Backing → Option ResourceKey
  | .resource r => r.mappedKey?
  | .owned _ => none

def replace (b : Backing) (bytes : Bytes) : Backing :=
  match b with
  | .resource r => .resource (r.replace bytes)
  | .owned _ => .owned bytes

end Backing

/-- Loads a file with the given tag whose payload passes `check`, and drops its header. The resource
is given back if that fails. -/
def loadFile (m : ResourceMap) (key : ResourceKey) (tag : Tag)
    (check : Bytes → Except DecodeError Unit) : Except DecodeError Backing × ResourceMap :=
  match m.load key false with
  | (.error e, m) => (.error e, m)
  | (.ok r, m) =>
    match (filePayload r.toBytes tag).bind check with
    | .error e => (.error e, m.release r)
    | .ok () => (.ok (.resource (r.advance fileHeaderSize)), m)

/-! ### Version and canvas -/

/-- The newest version that is understood. -/
def newestVersion : UInt8 := 1

def prologueSize : Nat := 6

def canvasOffset : Nat := 2

def readPrologue? : Bytes → Option (UInt8 × Size × Bytes)
  | version :: _ :: w0 :: w1 :: h0 :: h1 :: rest =>
    if version ≤ newestVersion then
      some (version, ⟨(Bytes.word16 w0 w1).toInt16, (Bytes.word16 h0 h1).toInt16⟩, rest)
    else none
  | _ => none

def encodePrologue (version : UInt8) (canvas : Size) : Bytes :=
  [version, 0] ++ encodePair canvas.w canvas.h

def writeCanvas? (bytes : Bytes) (canvas : Size) : Option Bytes :=
  if prologueSize ≤ bytes.length then
    some (bytes.overwrite canvasOffset (encodePair canvas.w canvas.h))
  else none

namespace Backing

def version (b : Backing) : UInt8 := b.toBytes.headD 0

/-- The canvas size, zero if it cannot be read. -/
def canvas (b : Backing) : Size :=
  match readPrologue? b.toBytes with
  | some (_, canvas, _) => canvas
  | none => {}

def modify (b : Backing) (change : Bytes → Option Bytes) : Except DecodeError Backing :=
  if b.isMapped then .error .badParameter
  else
    match change b.toBytes with
    | none => .error .malformed
    | some bytes => .ok (b.replace bytes)

end Backing

end DialGraphics.Draw
