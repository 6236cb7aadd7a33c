import DialGraphics.Bytes.Basic
import DialGraphics.Resource.MappingTable

/-!
# Resource stores

A store says how large a resource is, reads ranges of it, and may offer its bytes in read-only
memory. A catalog is a store that is written down entry by entry; its entries may claim a size that
is not the true one, and may hold back bytes of every read.
-/

namespace DialGraphics

structure Store where
  size : ResourceKey → Nat
  /-- The bytes read from an offset, at most as many as asked for. -/
  read : ResourceKey → Nat → Nat → Bytes
  readOnly : ResourceKey → Option Bytes

structure CatalogEntry where
  key : ResourceKey
  bytes : Bytes
  mappable : Bool
  /-- The size that the store reports. -/
  claimedSize : Nat
  /-- How many bytes fewer every read gives. -/
  shortfall : Nat

namespace CatalogEntry

def read (e : CatalogEntry) (offset length : Nat) : Bytes :=
  let available := (e.bytes.drop offset).take length
  available.take (available.length - e.shortfall)

end CatalogEntry

def Store.ofCatalog (entries : List CatalogEntry) : Store where
  size key := ((entries.find? (·.key = key)).map (·.claimedSize)).getD 0
  read key offset length := ((entries.find? (·.key = key)).map (·.read offset length)).getD []
  readOnly key :=
    match entries.find? (·.key = key) with
    | some e => if e.mappable then some e.bytes else none
    | none => none

end DialGraphics
