import DialGraphics.Proofs.Draw.FieldEdits

/-!
# Changes to the commands of a list

However commands are reached, changes are made to one record after the other, and each record gets
those that are meant for it. The records are found by their sizes, and these never change.
-/

namespace DialGraphics.Draw

/-! ### What is meant for a command -/

namespace ListEdit

/-- The settings for the command at a 0-based position. -/
def settingsFor (e : ListEdit) (j : Nat) : List Setting :=
  match e with
  | .one index settings => if j = index then settings else []
  | .every stop settings => if stop = 0 ∨ j < stop then settings else []
  | .each stop settings => if stop = 0 ∨ j < stop then settings[j]?.getD [] else []

/-- The record at a 0-based position with all that is meant for it, in order. -/
def editRecord (edits : List ListEdit) (j : Nat) (record : Bytes) : Bytes :=
  (Setting.applyAll (edits.flatMap (·.settingsFor j)) record).2

def editRecords (edits : List ListEdit) (records : List Bytes) : List Bytes :=
  records.mapIdx (editRecord edits)

variable {commands : List RecordLayout} {records : List Bytes}

theorem forall₂_mapIdx {change : Nat → Bytes → Bytes}
    (hchange : ∀ j l record, IsRecord l record → IsRecord l (change j record))
    (h : List.Forall₂ IsRecord commands records) :
    List.Forall₂ IsRecord commands (records.mapIdx change) := by
  induction h generalizing change with
  | nil => exact .nil
  | cons hrecord hrecords ih =>
    rw [List.mapIdx_cons]
    exact .cons (hchange 0 _ _ hrecord) (ih fun j => hchange (j + 1))

theorem isRecord_editRecord {l : RecordLayout} {record : Bytes} (edits : List ListEdit) (j : Nat)
    (h : IsRecord l record) : IsRecord l (editRecord edits j record) :=
  Setting.isRecord_applyAll _ h

theorem forall₂_editRecords (edits : List ListEdit) (h : List.Forall₂ IsRecord commands records) :
    List.Forall₂ IsRecord commands (editRecords edits records) :=
  forall₂_mapIdx (fun j _ _ => isRecord_editRecord edits j) h

theorem mapIdx_eq_self {change : Nat → Bytes → Bytes}
    (h : ∀ j record, records[j]? = some record → change j record = record) :
    records.mapIdx change = records := by
  rw [List.mapIdx_eq_iff]
  intro j
  cases hfound : records[j]? with
  | none => rfl
  | some record => rw [Option.map_some, h j record hfound]

theorem editRecords_nil (records : List Bytes) : editRecords [] records = records :=
  mapIdx_eq_self fun _ _ _ => rfl

theorem editRecords_cons (e : ListEdit) (edits : List ListEdit) (records : List Bytes) :
    editRecords (e :: edits) records = editRecords edits (editRecords [e] records) := by
  unfold editRecords
  rw [List.mapIdx_mapIdx]
  congr 1
  funext j record
  simp only [editRecord, List.flatMap_cons, List.flatMap_nil, List.append_nil, Function.comp_apply,
    Setting.applyAll_append]

/-! ### Reaching one command -/

theorem locate?_flatten (h : List.Forall₂ IsRecord commands records) (i : Nat) :
    locate? commands.length i records.flatten = records[i]?.map fun record =>
      ((records.take i).flatten, record, (records.drop (i + 1)).flatten) := by
  induction h generalizing i with
  | nil => rfl
  | cons hrecord hrecords ih =>
    rename_i l record commands records
    rw [List.flatten_cons, List.length_cons, locate?, hrecord.recordSize?_append]
    simp only [List.take_left, List.drop_left]
    cases i with
    | zero => rfl
    | succ i =>
      simp only [ih, List.getElem?_cons_succ, Option.map_map, List.take_succ_cons,
        List.drop_succ_cons, List.flatten_cons]
      rfl

theorem editRecord_one (index : Nat) (settings : List Setting) (j : Nat) (record : Bytes) :
    editRecord [one index settings] j record
      = if j = index then (Setting.applyAll settings record).2 else record := by
  rw [editRecord, List.flatMap_cons, List.flatMap_nil, List.append_nil, settingsFor]
  split
  · rfl
  · rfl

theorem apply_one (index : Nat) (settings : List Setting)
    (h : List.Forall₂ IsRecord commands records) :
    ((one index settings).apply commands.length records.flatten).2
      = (editRecords [one index settings] records).flatten := by
  simp only [apply, locate?_flatten h]
  cases hfound : records[index]? with
  | none =>
    have hsame : editRecords [one index settings] records = records := by
      apply mapIdx_eq_self
      intro j record hrecord
      have hj : j ≠ index := by
        rintro rfl
        cases hfound.symm.trans hrecord
      rw [editRecord_one, if_neg hj]
    rw [hsame]
    rfl
  | some record =>
    obtain ⟨hindex, -⟩ := List.getElem?_eq_some_iff.1 hfound
    have hset : editRecords [one index settings] records
        = records.set index (Setting.applyAll settings record).2 := by
      unfold editRecords
      rw [List.mapIdx_eq_iff]
      intro j
      by_cases hj : j = index
      · rw [hj, List.getElem?_set_self hindex, hfound, Option.map_some, editRecord_one, if_pos rfl]
      · rw [List.getElem?_set_ne (Ne.symm hj)]
        cases records[j]? with
        | none => rfl
        | some other => rw [Option.map_some, editRecord_one, if_neg hj]
    rw [hset, List.set_eq_take_append_cons_drop, if_pos hindex, List.flatten_append,
      List.flatten_cons, ← List.append_assoc]
    rfl

/-! ### Reaching one command after the other -/

/-- The walk reaches the commands up to the one at `stop`, or all if it is already past that. -/
theorem editEach_flatten {σ : Type} {op : Nat → Bytes → σ → Bool × Bytes × σ} (stop : Nat)
    (change : Nat → Bytes → Bytes)
    (hgoes : ∀ position record s, (op position record s).1 = (position != stop))
    (hchange : ∀ position record s, (op position record s).2.1 = change position record)
    (h : List.Forall₂ IsRecord commands records) (position : Nat) (s : σ) :
    (editEach op commands.length position records.flatten s).2.1
      = (records.mapIdx fun j record =>
          if stop < position ∨ position + j ≤ stop then change (position + j) record
          else record).flatten := by
  induction h generalizing position s with
  | nil => rfl
  | cons hrecord hrecords ih =>
    rename_i l record commands records
    have hgo := hgoes position record s
    have hnew := hchange position record s
    rw [List.flatten_cons, List.length_cons, editEach, hrecord.recordSize?_append]
    simp only [List.take_left, List.drop_left, List.mapIdx_cons, List.flatten_cons]
    rcases hop : op position record s with ⟨goesOn, new, s'⟩
    rw [hop] at hgo hnew
    simp only at hgo hnew
    subst hgo hnew
    by_cases hstop : position = stop
    · have hrest : (records.mapIdx fun j record =>
          if stop < position ∨ position + (j + 1) ≤ stop
          then change (position + (j + 1)) record else record) = records :=
        mapIdx_eq_self fun j record _ => if_neg (by omega)
      have hreach : stop < position ∨ position + 0 ≤ stop := by omega
      rw [hrest, if_pos hreach, hstop, bne_self_eq_false]
      rfl
    · have hgo : (position != stop) = true := bne_iff_ne.2 hstop
      have hreach : stop < position ∨ position + 0 ≤ stop := by omega
      have hplace : ∀ j, position + 1 + j = position + (j + 1) := by omega
      have hiff : ∀ j, (stop < position + 1 ∨ position + (j + 1) ≤ stop)
          ↔ (stop < position ∨ position + (j + 1) ≤ stop) := by omega
      have hrest := ih (position + 1) s'
      simp only [hplace, hiff] at hrest
      rw [hgo, if_pos hreach, ← hrest]
      rfl

theorem visitEach_flatten (stop : Nat) (settings : Nat → List Setting)
    (h : List.Forall₂ IsRecord commands records) :
    (visitEach stop commands.length settings records.flatten).2
      = (records.mapIdx fun j record =>
          if stop < 1 ∨ 1 + j ≤ stop then (Setting.applyAll (settings (1 + j)) record).2
          else record).flatten := by
  simp only [visitEach]
  exact editEach_flatten stop
    (fun position record => (Setting.applyAll (settings position) record).2)
    (fun _ _ _ => rfl) (fun _ _ _ => rfl) h 1 []

/-! ### Edits of a list -/

theorem apply_flatten (e : ListEdit) (h : List.Forall₂ IsRecord commands records) :
    (e.apply commands.length records.flatten).2 = (editRecords [e] records).flatten := by
  have hiff : ∀ stop j : Nat, (stop < 1 ∨ 1 + j ≤ stop) ↔ (stop = 0 ∨ j < stop) := by omega
  cases e with
  | one index settings => exact apply_one index settings h
  | every stop settings =>
    rw [apply, visitEach_flatten stop _ h]
    unfold editRecords
    congr 2
    funext j record
    simp only [hiff, editRecord, settingsFor, List.flatMap_cons, List.flatMap_nil, List.append_nil]
    split
    · rfl
    · rfl
  | each stop settings =>
    rw [apply, visitEach_flatten stop _ h]
    unfold editRecords
    congr 2
    funext j record
    simp only [hiff, editRecord, settingsFor, List.flatMap_cons, List.flatMap_nil, List.append_nil,
      Nat.add_sub_cancel_left]
    split
    · rfl
    · rfl

theorem applyAll_flatten (edits : List ListEdit) (h : List.Forall₂ IsRecord commands records) :
    (applyAll commands.length edits records.flatten).2 = (editRecords edits records).flatten := by
  induction edits generalizing records with
  | nil => rw [applyAll, editRecords_nil]
  | cons e edits ih =>
    rw [editRecords_cons, ← ih (forall₂_editRecords [e] h), ← apply_flatten e h]
    rfl

/-- Edits of a list change each record as if it stood alone, and nothing else. -/
theorem applyToList_eq (edits : List ListEdit) {n0 n1 : UInt8}
    (hcount : n0.toNat + 256 * n1.toNat = commands.length)
    (h : List.Forall₂ IsRecord commands records) :
    (applyToList edits (n0 :: n1 :: records.flatten)).2
      = n0 :: n1 :: (editRecords edits records).flatten := by
  have hword : (Bytes.word16 n0 n1).toNat = commands.length := (toNat_word16 n0 n1).trans hcount
  rw [← applyAll_flatten edits h, ← hword]
  rfl

theorem isCommandList_applyToList {list : Bytes} (edits : List ListEdit)
    (h : IsCommandList commands list) : IsCommandList commands (applyToList edits list).2 := by
  obtain ⟨n0, n1, records, rfl, hcount, hrecords⟩ := h
  rw [applyToList_eq edits hcount hrecords]
  exact ⟨n0, n1, _, rfl, hcount, forall₂_editRecords edits hrecords⟩

def commandStart (sizes : List Nat) (index : Nat) : Nat := countSize + (sizes.take index).sum

theorem flatten_around {parts : List Bytes} {k : Nat} (hk : k < parts.length) :
    parts.flatten = (parts.take k).flatten ++ parts[k] ++ (parts.drop (k + 1)).flatten := by
  have hdrop := List.drop_eq_getElem_cons hk
  rw [List.append_assoc, ← List.flatten_cons, ← hdrop, ← List.flatten_append,
    List.take_append_drop]

theorem applyToList_one {list : Bytes} {index : Nat} (s : Setting)
    (h : IsCommandList commands list) (hindex : index < commands.length) :
    ∃ result after new, applyToList [one index [s]] list = ([.changed [result] after], new)
      ∧ (result = .ok ()
          ∧ s.ChangesField (commandStart (commands.map RecordLayout.size) index) list new
        ∨ ∃ e, result = .error e ∧ new = list) := by
  obtain ⟨n0, n1, records, rfl, hcount, hrecords⟩ := h
  have hword : (Bytes.word16 n0 n1).toNat = commands.length := (toNat_word16 n0 n1).trans hcount
  have hindex' : index < records.length := hrecords.length_eq ▸ hindex
  have hold : n0 :: n1 :: records.flatten = n0 :: n1 :: (records.take index).flatten
      ++ records[index] ++ (records.drop (index + 1)).flatten := by
    rw [List.cons_append, List.cons_append, List.cons_append, List.cons_append,
      ← flatten_around hindex']
  have hstart : (n0 :: n1 :: (records.take index).flatten).length
      = commandStart (commands.map RecordLayout.size) index := by
    rw [List.length_cons, List.length_cons, List.length_flatten, List.map_take,
      map_length_records hrecords, commandStart, countSize]
    omega
  refine ⟨(s.apply records[index]).1, (Record.read? (s.apply records[index]).2).map (·.1),
    n0 :: n1 :: (records.take index).flatten ++ (s.apply records[index]).2
      ++ (records.drop (index + 1)).flatten, ?_, ?_⟩
  · simp only [applyToList, CommandList.ofChecked, Bytes.word16?, hword, applyAll, apply,
      locate?_flatten hrecords, List.getElem?_eq_getElem hindex', Option.map_some,
      Setting.applyAll]
    rfl
  · have hrecord : IsRecord commands[index] records[index] := hrecords.get hindex hindex'
    rcases s.apply_cases hrecord with ⟨hok, hfield⟩ | ⟨e, herror, hsame⟩
    · refine Or.inl ⟨hok, ?_⟩
      have happend := hfield.append (n0 :: n1 :: (records.take index).flatten)
        (records.drop (index + 1)).flatten
      rw [hstart, Nat.add_zero] at happend
      rw [hold]
      exact happend
    · refine Or.inr ⟨e, herror, ?_⟩
      rw [hsame, hold]

end ListEdit

end DialGraphics.Draw
