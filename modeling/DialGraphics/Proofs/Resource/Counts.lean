import DialGraphics.Resource.Map
import Mathlib.Data.List.Count

/-!
# Counts of views

The table has the counts of a list of things if it has, for every resource, the number of those that
are views of it. Making a view and giving one back keep it so.
-/

namespace DialGraphics

/-! ### Entries -/

theorem lookup_filter_ne {α β : Type} [DecidableEq α] (entries : List (α × β)) (key other : α) :
    (entries.filter fun e => e.1 ≠ key).lookup other
      = if other = key then none else entries.lookup other := by
  induction entries with
  | nil => simp
  | cons e entries ih =>
    obtain ⟨name, value⟩ := e
    by_cases hname : name = key
    · subst hname
      rw [List.filter_cons_of_neg (by simp), ih]
      split
      · rfl
      · rename_i hother
        rw [List.lookup_cons, beq_false_of_ne hother]
    · rw [List.filter_cons_of_pos (by simpa using hname), List.lookup_cons, List.lookup_cons, ih]
      by_cases hother : other = name
      · subst hother
        simp only [if_neg hname]
      · rw [beq_false_of_ne hother]

namespace MappingTable

theorem count_set (t : MappingTable) (key other : ResourceKey) (n : Nat) :
    (t.set key n).count other = if other = key then n else t.count other := by
  have hothers := lookup_filter_ne t.entries key other
  by_cases hn : n = 0
  · simp only [set, count, hn, if_true, hothers]
    split
    · rfl
    · rfl
  · simp only [set, count, hn, if_false, List.lookup_cons, hothers]
    by_cases hother : other = key
    · simp only [hother, if_true, beq_self_eq_true, Option.getD_some]
    · simp only [hother, if_false, beq_false_of_ne hother]

theorem positive_set {t : MappingTable} (h : ∀ e ∈ t.entries, 0 < e.2) (key : ResourceKey)
    (n : Nat) : ∀ e ∈ (t.set key n).entries, 0 < e.2 := by
  intro e he
  have hothers : e ∈ t.entries.filter (fun e => e.1 ≠ key) → 0 < e.2 :=
    fun he => h e ((List.mem_filter.1 he).1)
  simp only [set] at he
  split at he
  · exact hothers he
  · rename_i hn
    rcases List.mem_cons.1 he with rfl | he
    · exact Nat.pos_of_ne_zero hn
    · exact hothers he

/-! ### Exact counts -/

/-- The table has the counts of these views; `none` stands for what is no view. No entry is zero,
and nothing was ever given back that had not been counted. -/
structure Counts (t : MappingTable) (views : List (Option ResourceKey)) : Prop where
  exact : ∀ key, t.count key = views.count (some key)
  positive : ∀ e ∈ t.entries, 0 < e.2
  missed : t.missed = 0

variable {t : MappingTable} {views views' : List (Option ResourceKey)} {key : ResourceKey}

theorem counts_empty : Counts {} [] :=
  ⟨fun _ => rfl, fun _ he => (List.not_mem_nil he).elim, rfl⟩

theorem Counts.congr (h : Counts t views)
    (hviews : ∀ key : ResourceKey, views.count (some key) = views'.count (some key)) :
    Counts t views' :=
  ⟨fun key => (h.exact key).trans (hviews key), h.positive, h.missed⟩

theorem Counts.acquire (h : Counts t views) (key : ResourceKey) :
    Counts (t.acquire key) (some key :: views) := by
  refine ⟨fun other => ?_, positive_set h.positive key _, h.missed⟩
  rw [MappingTable.acquire, count_set, List.count_cons, h.exact, h.exact]
  by_cases hother : other = key
  · simp [hother]
  · simp [hother, Ne.symm hother]

theorem Counts.release (h : Counts t (some key :: views)) : Counts (t.release key) views := by
  have hlive : t.count key = views.count (some key) + 1 := by
    rw [h.exact, List.count_cons_self]
  have hrelease : t.release key = t.set key (views.count (some key)) := by
    have hfound : t.count key ≠ 0 := by omega
    rw [MappingTable.release, release?, if_neg hfound, hlive, Nat.add_sub_cancel]
  rw [hrelease]
  refine ⟨fun other => ?_, positive_set h.positive key _, h.missed⟩
  rw [count_set]
  split
  · rename_i hother
    rw [hother]
  · rename_i hother
    have hkey : some key ≠ some other := fun he => hother (Option.some.inj he).symm
    rw [h.exact, List.count_cons_of_ne hkey]

theorem Counts.of_cons_none (h : Counts t (none :: views)) : Counts t views :=
  h.congr fun key => List.count_cons_of_ne (by simp)

theorem Counts.cons_none (h : Counts t views) : Counts t (none :: views) :=
  h.congr fun key => (List.count_cons_of_ne (by simp)).symm

end MappingTable

/-! ### Loading -/

namespace ResourceMap

open MappingTable

/-- Something was made that may be a view, or nothing was; the counts are right in either case. -/
def CountsMade {α : Type} (views : List (Option ResourceKey)) (key? : α → Option ResourceKey) :
    Except DecodeError α × ResourceMap → Prop
  | (.ok a, m) => Counts m.table (key? a :: views)
  | (.error _, m) => Counts m.table views

variable {m : ResourceMap} {views : List (Option ResourceKey)} {key : ResourceKey}

theorem counts_release {r : ResourceBytes} (h : Counts m.table (r.mappedKey? :: views)) :
    Counts (m.release r).table views := by
  cases r with
  | mapped key bytes => exact h.release
  | heap copy => exact h.of_cons_none

theorem countsMade_fetch (h : Counts m.table views) (key : ResourceKey) (offset length : Nat)
    (pad : Bool) :
    CountsMade views ResourceBytes.mappedKey? (m.fetch key offset length pad) := by
  unfold fetch
  split
  · split
    · exact h.acquire key
    · exact h
  · cases m.copyRange key offset length pad with
    | error e => exact h
    | ok copy => exact h.cons_none

theorem countsMade_load (h : Counts m.table views) (key : ResourceKey) (pad : Bool) :
    CountsMade views ResourceBytes.mappedKey? (m.load key pad) := by
  unfold load
  split
  · exact h
  · exact countsMade_fetch h key 0 _ pad

theorem counts_intoHeap {r : ResourceBytes} (h : Counts m.table (r.mappedKey? :: views)) :
    Counts (m.intoHeap r).2.table views := by
  cases r with
  | mapped key bytes => exact h.release
  | heap copy => exact h.of_cons_none

end ResourceMap

theorem ResourceBytes.mappedKey?_advance (r : ResourceBytes) (n : Nat) :
    (r.advance n).mappedKey? = r.mappedKey? := by
  cases r <;> rfl

theorem ResourceBytes.mappedKey?_replace (r : ResourceBytes) (bytes : Bytes) :
    (r.replace bytes).mappedKey? = r.mappedKey? := by
  cases r <;> rfl

theorem ResourceBytes.mappedKey?_write? {r r' : ResourceBytes} {pos : Nat} {value : UInt8}
    (h : r.write? pos value = some r') : r'.mappedKey? = r.mappedKey? := by
  cases r with
  | mapped key bytes => cases h
  | heap copy =>
    simp only [write?] at h
    split at h
    · cases h
      rfl
    · cases h

end DialGraphics
