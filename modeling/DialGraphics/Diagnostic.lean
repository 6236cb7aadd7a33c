import DialGraphics.Draw.Record
import DialGraphics.Png.Chunk
import DialGraphics.Resource.Map

/-!
# Diagnostic texts

How colours, tags, chunks, mapped views and stored commands are shown in one line.
-/

namespace DialGraphics.Diagnostic

def record (name : String) (fields : List (String × String)) : String :=
  name ++ " \x7b " ++ ", ".intercalate (fields.map fun f => f.1 ++ ": " ++ f.2) ++ " \x7d"

def binary (byte : UInt8) : String :=
  String.ofList ((List.range 8).map fun i => if byte.toNat.testBit (7 - i) then '1' else '0')

def color (c : Color) : String := "GColor8(0b" ++ binary c.argb ++ ")"

def tag (t : Tag) : String :=
  "\"" ++ String.ofList (t.toBytes.map fun b => Char.ofNat b.toNat) ++ "\""

def shownBytes : Nat := 12

def chunk (c : Png.Chunk) : String :=
  let shown := (c.data.take shownBytes).map fun b => toString b.toNat
  record "PngChunk"
    [("tag", tag c.tag),
      ("data", "([" ++ ", ".intercalate shown ++ "], " ++ toString c.data.length ++ ")"),
      ("declared_crc", toString c.crc)]

def resourceKey (k : ResourceKey) : String :=
  record "ResourceKey" [("app", toString k.app.toNat), ("id", toString k.id.toNat)]

def mappedView? : ResourceBytes → Option String
  | .mapped key bytes =>
    some (record "MappedBytes" [("key", resourceKey key), ("len", toString bytes.length)])
  | .heap _ => none

def kind : Draw.Kind → String
  | .path => "Path"
  | .circle => "Circle"
  | .precisePath => "PrecisePath"

def command (r : Draw.Record) : String :=
  record "DrawCommandView"
    [("type", kind r.kind),
      ("hidden", if r.hidden then "true" else "false"),
      ("stroke_color", color r.strokeColor),
      ("stroke_width", toString r.strokeWidth.toNat),
      ("fill_color", color r.fillColor),
      ("num_points", toString r.count.toNat)]

end DialGraphics.Diagnostic
