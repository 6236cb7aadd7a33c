import DialGraphics.Draw.Container

/-!
# Draw command images

After the version and the canvas size an image is one command list, up to the last byte.
-/

namespace DialGraphics.Draw

structure Image where
  backing : Backing

namespace Image

def validate (bytes : Bytes) : Except DecodeError Unit :=
  match readPrologue? bytes with
  | none => .error .malformed
  | some (_, _, list) => if listSize? list = some list.length then .ok () else .error .malformed

def ofBytes (bytes : Bytes) : Except DecodeError Image :=
  (validate bytes).map fun _ => ⟨.owned bytes⟩

def ofResource (m : ResourceMap) (key : ResourceKey) : Except DecodeError Image × ResourceMap :=
  match loadFile m key Tag.drawImage validate with
  | (.error e, m) => (.error e, m)
  | (.ok backing, m) => (.ok ⟨backing⟩, m)

def toBytes (i : Image) : Bytes := i.backing.toBytes

def copy (i : Image) : Image := ⟨.owned i.toBytes⟩

def commands (i : Image) : CommandList := .ofChecked (i.toBytes.drop prologueSize)

def encode (version : UInt8) (canvas : Size) (commands : List Command) : Bytes :=
  encodePrologue version canvas ++ CommandList.encode commands

/-! ### Changing in place -/

def setCanvas (i : Image) (canvas : Size) : Except DecodeError Image :=
  (i.backing.modify fun bytes => writeCanvas? bytes canvas).map Image.mk

def edit? (i : Image) (edits : List ListEdit) : Option (List EditResult × Image) :=
  if i.backing.isMapped then none
  else
    let bytes := i.toBytes
    let (results, list) := ListEdit.applyToList edits (bytes.drop prologueSize)
    some (results, ⟨i.backing.replace (bytes.take prologueSize ++ list)⟩)

end Image

end DialGraphics.Draw
