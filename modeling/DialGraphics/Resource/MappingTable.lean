/-!
# Counts of mapped views

For every resource that is mapped, the table has the number of views that are in use. A resource
without views has no entry.
-/

namespace DialGraphics

structure ResourceKey where
  app : UInt32 := 0
  id : UInt32
  deriving DecidableEq, Repr

/-- How many views of each resource are in use. -/
structure MappingTable where
  entries : List (ResourceKey × Nat) := []
  /-- How often a view was given back that had not been counted. -/
  missed : Nat := 0
  deriving Repr

namespace MappingTable

def count (t : MappingTable) (key : ResourceKey) : Nat := (t.entries.lookup key).getD 0

def set (t : MappingTable) (key : ResourceKey) (n : Nat) : MappingTable :=
  let others := t.entries.filter fun e => e.1 ≠ key
  { t with entries := if n = 0 then others else (key, n) :: others }

def acquire (t : MappingTable) (key : ResourceKey) : MappingTable := t.set key (t.count key + 1)

def release? (t : MappingTable) (key : ResourceKey) : Option MappingTable :=
  if t.count key = 0 then none else some (t.set key (t.count key - 1))

def release (t : MappingTable) (key : ResourceKey) : MappingTable :=
  match t.release? key with
  | some t => t
  | none => { t with missed := t.missed + 1 }

end MappingTable

end DialGraphics
