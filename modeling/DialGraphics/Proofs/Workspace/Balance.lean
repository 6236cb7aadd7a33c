import DialGraphics.Proofs.Workspace.Views

/-!
# Balanced workspaces

The map of a workspace counts the views that are in its slots, and nothing else. A view on its way
from one place to the next is loose: what takes one out of a slot, or loads one, leaves it to the
next step to put it into a slot or give it back.
-/

namespace DialGraphics.Workspace

open MappingTable ResourceMap

def views (w : Workspace) : List (Option ResourceKey) := w.slots.map (·.2.mappedKey?)

/-- Exactly the views in slots and the loose ones are counted. -/
structure IsBalanced (w : Workspace) (loose : List (Option ResourceKey)) : Prop where
  names : (w.slots.map Prod.fst).Nodup
  counts : Counts w.map.table (loose ++ w.views)

theorem heldViews_eq_count (w : Workspace) (key : ResourceKey) :
    w.heldViews key = w.views.count (some key) := by
  rw [heldViews, views, List.count_eq_countP, List.countP_map, List.countP_eq_length_filter]
  congr 2
  funext s
  simp only [Function.comp_apply, beq_eq_decide]

variable {w : Workspace} {loose : List (Option ResourceKey)} {slot : String} {h old : Holding}

/-! ### Slots -/

theorem count_views_take {slots : List (String × Holding)}
    (hnames : (slots.map Prod.fst).Nodup) (slot : String) (key : ResourceKey) :
    (slots.map (·.2.mappedKey?)).count (some key)
      = ((slots.lookup slot).bind Holding.mappedKey?
          :: (slots.filter fun s => s.1 ≠ slot).map (·.2.mappedKey?)).count (some key) := by
  induction slots with
  | nil => simp
  | cons s slots ih =>
    obtain ⟨name, held⟩ := s
    rw [List.map_cons, List.nodup_cons] at hnames
    obtain ⟨hfresh, hnames⟩ := hnames
    by_cases hname : name = slot
    · subst hname
      have hothers : (slots.filter fun s => s.1 ≠ name) = slots := by
        rw [List.filter_eq_self]
        intro s hs
        have hne : s.1 ≠ name := by
          rintro rfl
          have hmem : s.1 ∈ slots.map Prod.fst := List.mem_map_of_mem hs
          exact hfresh hmem
        exact decide_eq_true hne
      rw [List.filter_cons_of_neg (by simp), hothers, List.lookup_cons, beq_self_eq_true]
      rfl
    · have hlookup : List.lookup slot ((name, held) :: slots) = slots.lookup slot := by
        rw [List.lookup_cons, beq_false_of_ne (Ne.symm hname)]
      rw [List.filter_cons_of_pos (by simpa using hname), hlookup, List.map_cons, List.map_cons,
        List.count_cons, ih hnames, List.count_cons, List.count_cons, List.count_cons]
      omega

theorem IsBalanced.congr {loose' : List (Option ResourceKey)} (hw : w.IsBalanced loose)
    (hloose : ∀ key : ResourceKey, loose.count (some key) = loose'.count (some key)) :
    w.IsBalanced loose' := by
  refine ⟨hw.names, hw.counts.congr fun key => ?_⟩
  rw [List.count_append, List.count_append, hloose]

theorem IsBalanced.take (hw : w.IsBalanced loose) (slot : String) :
    (w.take slot).IsBalanced ((w.holding? slot).bind Holding.mappedKey? :: loose) := by
  refine ⟨?_, hw.counts.congr fun key => ?_⟩
  · exact hw.names.sublist (List.filter_sublist.map Prod.fst)
  · rw [List.count_append, views, count_views_take hw.names slot key, List.cons_append,
      List.count_cons, List.count_cons, List.count_append]
    exact (Nat.add_assoc ..).symm

theorem IsBalanced.giveBack {key : Option ResourceKey} (hw : w.IsBalanced (key :: loose)) :
    (w.giveBack key).IsBalanced loose := by
  cases key with
  | none => exact ⟨hw.names, hw.counts.of_cons_none⟩
  | some key => exact ⟨hw.names, hw.counts.release⟩

theorem IsBalanced.empty (hw : w.IsBalanced loose) (slot : String) :
    (w.empty slot).IsBalanced loose := (hw.take slot).giveBack

theorem IsBalanced.add (hw : w.IsBalanced (h.mappedKey? :: loose))
    (hfree : slot ∉ w.slots.map Prod.fst) :
    ({ w with slots := (slot, h) :: w.slots } : Workspace).IsBalanced loose := by
  refine ⟨List.nodup_cons.2 ⟨hfree, hw.names⟩, hw.counts.congr fun key => ?_⟩
  simp only [List.cons_append, List.count_cons, List.count_append, views, List.map_cons]
  omega

theorem not_mem_take (w : Workspace) (slot : String) : slot ∉ (w.take slot).slots.map Prod.fst := by
  intro hmem
  obtain ⟨s, hs, rfl⟩ := List.mem_map.1 hmem
  exact of_decide_eq_true (List.mem_filter.1 hs).2 rfl

theorem slots_giveBack (w : Workspace) (key : Option ResourceKey) :
    (w.giveBack key).slots = w.slots := by
  cases key <;> rfl

theorem IsBalanced.put (hw : w.IsBalanced (h.mappedKey? :: loose)) (slot : String) :
    (w.put slot h).IsBalanced loose := by
  apply (hw.empty slot).add
  rw [Workspace.empty, slots_giveBack]
  exact w.not_mem_take slot

-- the new holding has the view of the old one, or another one that is loose in exchange
theorem IsBalanced.update (hw : (w.take slot).IsBalanced (h.mappedKey? :: loose)) :
    (w.update slot h).IsBalanced loose :=
  hw.add (w.not_mem_take slot)

theorem IsBalanced.update_same (hw : w.IsBalanced loose) (hold : w.holding? slot = some old)
    (hkey : h.mappedKey? = old.mappedKey?) : (w.update slot h).IsBalanced loose := by
  have htaken := hw.take slot
  rw [hold, Option.bind_some, ← hkey] at htaken
  exact htaken.update

/-! ### Making and loading -/

theorem IsBalanced.store (hw : w.IsBalanced loose) {made : Except DecodeError Holding}
    (hmade : ∀ h, made = .ok h → h.mappedKey? = none) (slot : String) :
    (w.store slot made).2.IsBalanced loose := by
  cases made with
  | error e => exact hw
  | ok h =>
    have hnone := hmade h rfl
    refine IsBalanced.put ⟨hw.names, ?_⟩ slot
    rw [hnone]
    exact hw.counts.cons_none

theorem IsBalanced.storeLoaded {α : Type} {key? : α → Option ResourceKey} {hold : α → Holding}
    {made : Except DecodeError α × ResourceMap} (hw : w.IsBalanced loose)
    (hmade : CountsMade (loose ++ w.views) key? made)
    (hhold : ∀ a, (hold a).mappedKey? = key? a) (slot : String) :
    (w.storeLoaded slot hold made).2.IsBalanced loose := by
  rcases made with ⟨e | a, m⟩
  · exact ⟨hw.names, hmade⟩
  · refine IsBalanced.put (w := { w with map := m }) ⟨hw.names, ?_⟩ slot
    rw [hhold]
    exact hmade

theorem IsBalanced.withSlot (hw : w.IsBalanced loose) {f : Holding → Answer × Workspace}
    (hf : ∀ h, w.holding? slot = some h → (f h).2.IsBalanced loose) :
    (w.withSlot slot f).2.IsBalanced loose := by
  unfold Workspace.withSlot
  split
  · exact hw
  · rename_i h hh
    exact hf h hh

/-! ### Operations -/

theorem IsBalanced.giveBackAll {displaced : List PixelSource}
    (hw : w.IsBalanced (displaced.map PixelSource.mappedKey?)) :
    (displaced.foldl (fun w old => w.giveBack old.mappedKey?) w).IsBalanced [] := by
  induction displaced generalizing w with
  | nil => exact hw
  | cons old displaced ih => exact ih hw.giveBack

theorem IsBalanced.onBitmap {b : Bitmap} (hw : w.IsBalanced [])
    (hold : w.holding? slot = some (.bitmap b)) (actions : List BitmapAction) :
    let held := (BitmapAction.runAll actions ⟨b, []⟩).2
    (held.displaced.foldl (fun w old => w.giveBack old.mappedKey?)
      (w.update slot (.bitmap held.bitmap))).IsBalanced [] := by
  intro held
  -- what the bitmap has in the end and what it gave up are together the view that it had
  have htaken := hw.take slot
  rw [hold, Option.bind_some] at htaken
  have hupdated : (w.update slot (.bitmap held.bitmap)).IsBalanced
      (held.displaced.map PixelSource.mappedKey?) := by
    apply IsBalanced.update
    exact htaken.congr fun key => (BitmapAction.count_views_runAll actions ⟨b, []⟩ key).symm
  exact hupdated.giveBackAll

theorem holding?_take {target : String} (w : Workspace) (hne : target ≠ slot) :
    (w.take slot).holding? target = w.holding? target := by
  rw [holding?, Workspace.take, lookup_filter_ne, if_neg hne]
  rfl

theorem IsBalanced.giveData {target : String} {r : ResourceBytes} {b : Bitmap}
    (hw : w.IsBalanced []) (hslot : w.holding? slot = some (.resource r))
    (htarget : w.holding? target = some (.bitmap b)) (format : PixelFormat) (rowSize : UInt16) :
    (w.giveData slot target r b format rowSize).2.IsBalanced [] := by
  have hne : target ≠ slot := by
    rintro rfl
    cases hslot.symm.trans htarget
  have htaken := hw.take slot
  rw [hslot, Option.bind_some] at htaken
  unfold Workspace.giveData
  rcases b.setData_cases (.resource r) format rowSize with ⟨b', hset, hpixels, -⟩ | herror
  · simp only [hset]
    have hboth := htaken.take target
    rw [holding?_take w hne, htarget, Option.bind_some] at hboth
    -- the new storage takes the place of the old one, which is loose in exchange
    have hnew : (Holding.bitmap b').mappedKey? = (Holding.resource r).mappedKey? :=
      congrArg PixelSource.mappedKey? hpixels
    apply IsBalanced.giveBack
    apply IsBalanced.update
    refine hboth.congr fun key => ?_
    rw [hnew, List.count_cons, List.count_cons, List.count_cons, List.count_cons]
    exact Nat.add_right_comm ..
  · simp only [herror]
    exact htaken.giveBack

theorem IsBalanced.perform (hw : w.IsBalanced []) (a : Action) :
    (w.perform a).2.IsBalanced [] := by
  cases a with
  | load slot key pad =>
    exact hw.storeLoaded (countsMade_load hw.counts key pad) (fun _ => rfl) slot
  | range slot key offset length pad =>
    have hfetch := countsMade_fetch hw.counts key offset length pad
    simp only [Workspace.perform, ResourceMap.range?]
    rcases hmade : w.map.fetch key offset length pad with ⟨e | r, m⟩
    · rw [hmade] at hfetch
      exact ⟨hw.names, hfetch⟩
    · rw [hmade] at hfetch
      have hloaded : IsBalanced { w with map := m } [(Holding.resource r).mappedKey?] :=
        ⟨hw.names, hfetch⟩
      exact hloaded.put slot
  | bitmap slot key platform =>
    exact hw.storeLoaded (Bitmap.countsMade_ofResource hw.counts key platform) (fun _ => rfl) slot
  | image slot key =>
    exact hw.storeLoaded (Draw.Image.countsMade_ofResource hw.counts key) (fun _ => rfl) slot
  | sequence slot key =>
    exact hw.storeLoaded (Draw.Sequence.countsMade_ofResource hw.counts key) (fun _ => rfl) slot
  | imageOfBytes slot bytes =>
    apply hw.store
    intro h hh
    obtain ⟨i, hi, rfl⟩ := map_eq_ok_iff.1 hh
    obtain ⟨-, -, rfl⟩ := map_eq_ok_iff.1 hi
    rfl
  | sequenceOfBytes slot bytes =>
    apply hw.store
    intro h hh
    obtain ⟨s, hs, rfl⟩ := map_eq_ok_iff.1 hh
    obtain ⟨-, -, rfl⟩ := map_eq_ok_iff.1 hs
    rfl
  | heapOfBytes slot bytes =>
    apply hw.store
    rintro h ⟨⟩
    rfl
  | bitmapOfRaw slot bytes platform =>
    apply hw.store
    intro h hh
    obtain ⟨b, hb, rfl⟩ := map_eq_ok_iff.1 hh
    exact Bitmap.isNoView_of_ofRaw hb
  | bitmapOfPng slot bytes platform =>
    apply hw.store
    intro h hh
    obtain ⟨b, hb, rfl⟩ := map_eq_ok_iff.1 hh
    exact Bitmap.isNoView_of_ofPng hb
  | blank slot size format platform =>
    apply hw.store
    intro h hh
    obtain ⟨b, hb, rfl⟩ := map_eq_ok_iff.1 hh
    exact Bitmap.isNoView_of_blank hb
  | blankWithPalette slot size format palette platform =>
    apply hw.store
    intro h hh
    obtain ⟨b, hb, rfl⟩ := map_eq_ok_iff.1 hh
    exact Bitmap.isNoView_of_blankWithPalette hb
  | copy slot source =>
    apply hw.withSlot
    intro h hh
    split
    · apply hw.store
      rintro h ⟨⟩
      rfl
    · apply hw.store
      rintro h ⟨⟩
      rfl
    · exact hw
  | palettize slot source =>
    apply hw.withSlot
    intro h hh
    split
    · apply hw.store
      intro h hh
      obtain ⟨b', hb', rfl⟩ := map_eq_ok_iff.1 hh
      exact Bitmap.isNoView_of_toPalettized hb'
    · exact hw
  | part slot source rect =>
    apply hw.withSlot
    intro h hh
    split
    · split
      · exact hw
      · rename_i part hpart
        apply hw.store
        rintro h ⟨⟩
        exact Bitmap.isNoView_of_subBitmap? hpart
    · exact hw
  | intoHeap slot =>
    apply hw.withSlot
    intro h hh
    dsimp only
    split
    · have htaken := hw.take slot
      rw [hh, Option.bind_some] at htaken
      apply IsBalanced.update
      exact ⟨htaken.names, (counts_intoHeap htaken.counts).cons_none⟩
    · exact hw
  | size key => exact hw
  | viewCount key => exact hw
  | describe slot => exact hw.withSlot fun _ _ => hw
  | write slot pos value =>
    apply hw.withSlot
    intro h hh
    split
    · split
      · exact hw
      · rename_i r' hwritten
        exact hw.update_same hh (ResourceBytes.mappedKey?_write? hwritten)
    · exact hw
  | advance slot n =>
    apply hw.withSlot
    intro h hh
    split
    · rename_i r
      exact hw.update_same hh (r.mappedKey?_advance n)
    · exact hw
  | align slot n =>
    apply hw.withSlot
    intro h hh
    split
    · exact hw.update_same hh rfl
    · exact hw.update_same hh rfl
    · exact hw
  | release slot =>
    apply hw.withSlot
    intro h hh
    split
    · exact hw.empty slot
    · exact hw
  | drop slot => exact hw.empty slot
  | onBitmap slot actions =>
    apply hw.withSlot
    intro h hh
    dsimp only
    split
    · exact hw.onBitmap hh actions
    · exact hw
  | onImage slot actions =>
    apply hw.withSlot
    intro h hh
    dsimp only
    split
    · rename_i i
      exact hw.update_same hh (Draw.Image.mappedKey?_runAll actions i)
    · exact hw
  | onSequence slot actions =>
    apply hw.withSlot
    intro h hh
    dsimp only
    split
    · rename_i s
      exact hw.update_same hh (Draw.Sequence.mappedKey?_runAll actions s)
    · exact hw
  | giveData slot target format rowSize =>
    simp only [Workspace.perform]
    split
    · exact hw
    · exact hw
    · rename_i r b hslot htarget
      exact hw.giveData hslot htarget format rowSize
    · exact hw

/-! ### Failures -/

/-- An answer that says that an operation did not come about. -/
def Action.isFailure (a : Action) : Answer → Bool
  | .failed _ | .emptySlot | .wrongHolding | .flag false | .given (.error _) .. => true
  | .nothing =>
    match a with
    | .release _ => false
    | _ => true
  | .bitmapAnswers answers => answers.all BitmapAnswer.isFailure
  | _ => false

/-- The view that was handed in for an operation and is gone with its failure. -/
def droppedBy (w : Workspace) (a : Action) (answer : Answer) : Option ResourceKey :=
  match a, answer with
  | .giveData slot .., .given (.error _) .. => (w.holding? slot).bind Holding.mappedKey?
  | _, _ => none

def SameViews (w w' : Workspace) : Prop :=
  ∀ key : ResourceKey, w'.views.count (some key) = w.views.count (some key)

theorem sameViews_update (hnames : (w.slots.map Prod.fst).Nodup)
    (hold : w.holding? slot = some old) (hkey : h.mappedKey? = old.mappedKey?) :
    w.SameViews (w.update slot h) := by
  intro key
  have htake := count_views_take hnames slot key
  rw [show w.slots.lookup slot = some old from hold, Option.bind_some, ← hkey] at htake
  exact htake.symm

theorem sameViews_store {made : Except DecodeError Holding} {a : Action}
    (hfails : a.isFailure (w.store slot made).1 = true) : w.SameViews (w.store slot made).2 := by
  cases made with
  | error e => exact fun _ => rfl
  | ok h => cases hfails

theorem sameViews_storeLoaded {α : Type} {hold : α → Holding}
    {made : Except DecodeError α × ResourceMap} {a : Action}
    (hfails : a.isFailure (w.storeLoaded slot hold made).1 = true) :
    w.SameViews (w.storeLoaded slot hold made).2 := by
  rcases made with ⟨e | x, m⟩
  · exact fun _ => rfl
  · cases hfails

theorem sameViews_withSlot {f : Holding → Answer × Workspace} {a : Action}
    (hfails : a.isFailure (w.withSlot slot f).1 = true)
    (hf : ∀ h, w.holding? slot = some h → a.isFailure (f h).1 = true → w.SameViews (f h).2) :
    w.SameViews (w.withSlot slot f).2 := by
  unfold Workspace.withSlot at hfails ⊢
  split at hfails
  · exact fun _ => rfl
  · rename_i h hh
    exact hf h hh hfails

theorem count_views_giveData {target : String} {r : ResourceBytes} {b : Bitmap}
    {format : PixelFormat} {rowSize : UInt16} (hnames : (w.slots.map Prod.fst).Nodup)
    (hslot : w.holding? slot = some (.resource r))
    (hfails : (Action.giveData slot target format rowSize).isFailure
      (w.giveData slot target r b format rowSize).1 = true) (key : ResourceKey) :
    (w.giveData slot target r b format rowSize).2.views.count (some key)
        + [w.droppedBy (.giveData slot target format rowSize)
            (w.giveData slot target r b format rowSize).1].count (some key)
      = w.views.count (some key) := by
  have htake := count_views_take hnames slot key
  rw [show w.slots.lookup slot = some (.resource r) from hslot, Option.bind_some] at htake
  unfold Workspace.giveData at hfails ⊢
  rcases b.setData_cases (.resource r) format rowSize with ⟨b', hset, -⟩ | herror
  · simp only [hset] at hfails
    cases hfails
  · simp only [herror, droppedBy, hslot, Option.bind_some]
    rw [views, slots_giveBack, views, htake, List.count_cons, List.count_cons, List.count_nil,
      Nat.zero_add]
    rfl

theorem sameViews_onBitmap {b : Bitmap} {actions : List BitmapAction}
    (hnames : (w.slots.map Prod.fst).Nodup) (hold : w.holding? slot = some (.bitmap b))
    (hfails : (BitmapAction.runAll actions ⟨b, []⟩).1.all BitmapAnswer.isFailure = true) :
    let held := (BitmapAction.runAll actions ⟨b, []⟩).2
    w.SameViews (held.displaced.foldl (fun w old => w.giveBack old.mappedKey?)
      (w.update slot (.bitmap held.bitmap))) := by
  intro held
  obtain ⟨hkey, hdisplaced⟩ := BitmapAction.sameStorage_runAll hfails
  rw [show held.displaced = [] from hdisplaced]
  exact sameViews_update hnames hold hkey

theorem count_views_of_isFailure (hnames : (w.slots.map Prod.fst).Nodup) {a : Action}
    (hfails : a.isFailure (w.perform a).1 = true) (key : ResourceKey) :
    (w.perform a).2.views.count (some key) + [w.droppedBy a (w.perform a).1].count (some key)
      = w.views.count (some key) := by
  cases a with
  | load slot key' pad => exact sameViews_storeLoaded hfails key
  | range slot key' offset length pad =>
    simp only [perform, ResourceMap.range?] at hfails ⊢
    rcases hmade : w.map.fetch key' offset length pad with ⟨e | r, m⟩
    · rfl
    · rw [hmade] at hfails
      cases hfails
  | bitmap slot key' platform => exact sameViews_storeLoaded hfails key
  | image slot key' => exact sameViews_storeLoaded hfails key
  | sequence slot key' => exact sameViews_storeLoaded hfails key
  | imageOfBytes slot bytes => exact sameViews_store hfails key
  | sequenceOfBytes slot bytes => exact sameViews_store hfails key
  | heapOfBytes slot bytes => exact sameViews_store hfails key
  | bitmapOfRaw slot bytes platform => exact sameViews_store hfails key
  | bitmapOfPng slot bytes platform => exact sameViews_store hfails key
  | blank slot size format platform => exact sameViews_store hfails key
  | blankWithPalette slot size format palette platform => exact sameViews_store hfails key
  | copy slot source =>
    refine sameViews_withSlot hfails (fun h hh hfails => ?_) key
    split at hfails
    · exact sameViews_store hfails
    · exact sameViews_store hfails
    · exact fun _ => rfl
  | palettize slot source =>
    refine sameViews_withSlot hfails (fun h hh hfails => ?_) key
    split at hfails
    · exact sameViews_store hfails
    · exact fun _ => rfl
  | part slot source rect =>
    refine sameViews_withSlot hfails (fun h hh hfails => ?_) key
    split at hfails
    · split at hfails
      · exact fun _ => rfl
      · exact sameViews_store hfails
    · exact fun _ => rfl
  | intoHeap slot =>
    refine sameViews_withSlot hfails (fun h hh hfails => ?_) key
    split at hfails
    · cases hfails
    · exact fun _ => rfl
  | size key' => cases hfails
  | viewCount key' => cases hfails
  | describe slot => exact sameViews_withSlot hfails (fun _ _ _ _ => rfl) key
  | write slot pos value =>
    refine sameViews_withSlot hfails (fun h hh hfails => ?_) key
    split at hfails
    · split at hfails
      · exact fun _ => rfl
      · cases hfails
    · exact fun _ => rfl
  | advance slot n =>
    refine sameViews_withSlot hfails (fun h hh hfails => ?_) key
    split at hfails
    · cases hfails
    · exact fun _ => rfl
  | align slot n =>
    refine sameViews_withSlot hfails (fun h hh hfails => ?_) key
    split at hfails
    · exact sameViews_update hnames hh rfl
    · exact sameViews_update hnames hh rfl
    · exact fun _ => rfl
  | release slot =>
    refine sameViews_withSlot hfails (fun h hh hfails => ?_) key
    split at hfails
    · cases hfails
    · exact fun _ => rfl
  | drop slot =>
    cases hh : w.holding? slot with
    | some h =>
      rw [perform, hh] at hfails
      cases hfails
    | none =>
      have htake := count_views_take hnames slot key
      rw [show w.slots.lookup slot = none from hh, Option.bind_none,
        List.count_cons_of_ne (by simp)] at htake
      rw [views, perform, Workspace.empty, slots_giveBack, views, htake]
      rfl
  | onBitmap slot actions =>
    refine sameViews_withSlot hfails (fun h hh hfails => ?_) key
    split at hfails
    · exact sameViews_onBitmap hnames hh hfails
    · exact fun _ => rfl
  | onImage slot actions =>
    refine sameViews_withSlot hfails (fun h hh hfails => ?_) key
    split at hfails
    · cases hfails
    · exact fun _ => rfl
  | onSequence slot actions =>
    refine sameViews_withSlot hfails (fun h hh hfails => ?_) key
    split at hfails
    · cases hfails
    · exact fun _ => rfl
  | giveData slot target format rowSize =>
    simp only [perform] at hfails ⊢
    split at hfails
    · rfl
    · rfl
    · rename_i r b hslot htarget
      exact count_views_giveData hnames hslot hfails key
    · rfl

/-! ### Exact counts -/

/-- A workspace as it comes about from an empty one. A store may answer differently from one
operation to the next. -/
inductive Reachable : Workspace → Prop
  | start (map : ResourceMap) (htable : map.table = {}) : Reachable { map }
  | perform {w : Workspace} (hw : Reachable w) (a : Action) : Reachable (w.perform a).2
  | restock {w : Workspace} (hw : Reachable w) (store : Store) :
      Reachable { w with map := { w.map with store } }

theorem Reachable.isBalanced (hw : Reachable w) : w.IsBalanced [] := by
  induction hw with
  | start map htable =>
    refine ⟨List.nodup_nil, ?_⟩
    show Counts map.table []
    rw [htable]
    exact counts_empty
  | perform hw a ih => exact ih.perform a
  | restock hw store ih => exact ⟨ih.names, ih.counts⟩

theorem Reachable.performAll (hw : Reachable w) (actions : List Action) :
    Reachable (w.performAll actions).2 := by
  induction actions generalizing w with
  | nil => exact hw
  | cons a actions ih => exact ih (hw.perform a)

/-- Whatever was done, every resource is counted as often as slots hold a view of it. No count that
is stored is zero, no view was ever given back that was not counted, and an operation that fails
changes no count, other than by the view that it was handed. -/
theorem Reachable.counts_exact (hw : Reachable w) :
    (∀ key, w.map.viewCount key = w.heldViews key)
      ∧ (∀ e ∈ w.map.table.entries, 0 < e.2)
      ∧ w.map.table.missed = 0
      ∧ ∀ a : Action, a.isFailure (w.perform a).1 = true → ∀ key,
        (w.perform a).2.map.viewCount key
            + (if w.droppedBy a (w.perform a).1 = some key then 1 else 0)
          = w.map.viewCount key := by
  have hcount : ∀ {w : Workspace}, w.IsBalanced [] → ∀ key,
      w.map.viewCount key = w.views.count (some key) := fun hw key => hw.counts.exact key
  have hbalanced := hw.isBalanced
  refine ⟨fun key => ?_, hbalanced.counts.positive, hbalanced.counts.missed, fun a hfails key => ?_⟩
  · rw [hcount hbalanced, heldViews_eq_count]
  · rw [hcount (hbalanced.perform a), hcount hbalanced,
      ← count_views_of_isFailure hbalanced.names hfails key, List.count_singleton]
    simp only [beq_iff_eq]

/-- A resource of two bytes is mapped twice, one view is dropped, and a bitmap is tried in vain. -/
theorem counts_exact_twoViews :
    let map : ResourceMap := { store := .ofCatalog [⟨⟨0, 1⟩, [7, 8], true, 2, 0⟩] }
    let w := (Workspace.performAll { map }
      [.load "a" ⟨0, 1⟩ false, .load "b" ⟨0, 1⟩ true, .drop "a"]).2
    let a := Action.bitmap "c" ⟨0, 1⟩ .standard
    w.heldViews ⟨0, 1⟩ = 1 ∧ w.map.viewCount ⟨0, 1⟩ = 1 ∧ a.isFailure (w.perform a).1 = true
      ∧ (w.perform a).2.map.viewCount ⟨0, 1⟩ = 1 := by
  intro map w a
  have hw : Reachable w := (Reachable.start map rfl).performAll _
  obtain ⟨hexact, -, -, hfailure⟩ := hw.counts_exact
  have hheld : w.heldViews ⟨0, 1⟩ = 1 := by decide +kernel
  have hfails : a.isFailure (w.perform a).1 = true := by decide +kernel
  have hlive : w.map.viewCount ⟨0, 1⟩ = 1 := (hexact ⟨0, 1⟩).trans hheld
  have hkept := hfailure a hfails ⟨0, 1⟩
  rw [show w.droppedBy a (w.perform a).1 = none from rfl, if_neg (by simp), Nat.add_zero, hlive]
    at hkept
  exact ⟨hheld, hlive, hfails, hkept⟩

end DialGraphics.Workspace
