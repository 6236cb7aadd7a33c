import DialGraphics.Proofs.Resource.HeapCopies

/-!
# In place or copied

A map that offers a resource in place gives a view of its bytes, and one that does not gives a copy
of them, at whatever address copies are made.
-/

namespace DialGraphics

/-- Whatever a store says about a resource is about these bytes. -/
structure Store.Describes (s : Store) (key : ResourceKey) (bytes : Bytes) : Prop where
  size : s.size key = bytes.length
  read : ∀ offset n, s.read key offset n = (bytes.drop offset).take n
  readOnly : ∀ offered, s.readOnly key = some offered → offered = bytes

theorem Store.describes_ofCatalog (key : ResourceKey) (bytes : Bytes) (mappable : Bool) :
    (Store.ofCatalog [⟨key, bytes, mappable, bytes.length, 0⟩]).Describes key bytes := by
  have hfound : [(⟨key, bytes, mappable, bytes.length, 0⟩ : CatalogEntry)].find? (·.key = key)
      = some ⟨key, bytes, mappable, bytes.length, 0⟩ := List.find?_cons_of_pos (by simp)
  refine ⟨?_, fun offset n => ?_, fun offered hoffered => ?_⟩
  · simp only [Store.ofCatalog, hfound]
    rfl
  · simp only [Store.ofCatalog, hfound, Option.map_some, Option.getD_some, CatalogEntry.read,
      Nat.sub_zero, List.take_length]
  · simp only [Store.ofCatalog, hfound] at hoffered
    split at hoffered
    · exact (Option.some.inj hoffered).symm
    · cases hoffered

/-- Two attempts fail for the same cause, or make things that are alike. -/
def SameOutcome {α β : Type} (alike : α → β → Prop) :
    Except DecodeError α → Except DecodeError β → Prop
  | .ok a, .ok b => alike a b
  | .error e, .error e' => e = e'
  | _, _ => False

namespace ResourceMap

variable {m : ResourceMap} {key : ResourceKey} {bytes : Bytes}

theorem load_eq_fetch (hbytes : bytes ≠ []) (hstore : m.store.Describes key bytes) (pad : Bool) :
    m.load key pad = m.fetch key 0 bytes.length pad := by
  have hsize : m.store.size key ≠ 0 := by
    rw [hstore.size]
    exact fun h => hbytes (List.length_eq_zero_iff.1 h)
  rw [load, if_neg hsize, hstore.size]

theorem load_inPlace (hbytes : bytes ≠ []) (hstore : m.store.Describes key bytes)
    (hmapped : m.mappable? key ≠ none) (pad : Bool) :
    (m.load key pad).1 = .ok (.mapped key bytes) := by
  have hoffered : m.mappable? key = some bytes := by
    obtain ⟨offered, hoffered⟩ := Option.ne_none_iff_exists'.1 hmapped
    have hreadOnly := hoffered
    unfold mappable? at hreadOnly
    split at hreadOnly
    · rw [hoffered, hstore.readOnly offered hreadOnly]
    · cases hreadOnly
  have hall : bytes.slice? 0 bytes.length = some bytes := by
    rw [Bytes.slice?_eq, Nat.zero_add, if_pos (Nat.le_refl _), List.drop_zero, List.take_length]
  rw [load_eq_fetch hbytes hstore, fetch, hoffered]
  simp only [hall]

theorem load_copied (hbytes : bytes ≠ []) (hstore : m.store.Describes key bytes)
    (hcopied : m.mappable? key = none) (pad : Bool) :
    (∃ copy, (m.load key pad).1 = .ok (.heap copy) ∧ copy.toBytes = bytes)
      ∨ allocationLimit ≤ bytes.length + (if pad then alignmentPad else 0)
        ∧ (m.load key pad).1 = .error .outOfMemory := by
  have hread : m.store.read key 0 bytes.length = bytes := by
    rw [hstore.read, List.drop_zero, List.take_length]
  rw [load_eq_fetch hbytes hstore, fetch, hcopied]
  simp only [copyRange]
  by_cases hlarge : allocationLimit ≤ bytes.length + (if pad then alignmentPad else 0)
  · right
    rw [if_pos hlarge]
    exact ⟨hlarge, rfl⟩
  · left
    rw [if_neg hlarge, hread, if_pos rfl]
    exact ⟨_, rfl, HeapBytes.toBytes_ofPadded ..⟩

end ResourceMap

end DialGraphics
