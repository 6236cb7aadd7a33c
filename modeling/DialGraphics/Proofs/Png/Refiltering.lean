import DialGraphics.Proofs.Png.FilteredRows

/-!
# Refiltering

Filtering undoes unfiltering as well: lines that can be unfiltered are the filtered lines of the
rows that come out of them, under the filters that they name. So the two are inverse to each other,
row by row and for a whole image.
-/

namespace DialGraphics.Png

/-! ### One row -/

theorem sweep_filterStep_unfilterStep (f : Filter) {w : Window} (hw : w.IsFilled)
    (xs : List (UInt8 × UInt8)) :
    (sweep (filterStep f) w ((sweep (unfilterStep f) w xs).2.zip (xs.map Prod.snd))).2
      = xs.map Prod.fst := by
  -- a window holds raw bytes, so both sweeps push the same one and predict the same byte
  induction xs generalizing w with
  | nil => rfl
  | cons x xs ih =>
    have hfiltered : x.1 + w.predict f 0 x.2 - w.predict f (x.1 + w.predict f 0 x.2) x.2 = x.1 := by
      rw [hw.predict_eq f (x.1 + w.predict f 0 x.2) 0, UInt8.add_sub_cancel]
    have hrest := ih (hw.push (x.1 + w.predict f 0 x.2) x.2)
    simp only [sweep_cons, List.map_cons, List.zip_cons_cons]
    simp only [filterStep, unfilterStep, hfiltered]
    rw [← hrest]

theorem filterRow_unfilterRow {f : Filter} {unit : Nat} {above row : Bytes} (hunit : 0 < unit)
    (h : row.length = above.length) :
    filterRow f unit above (unfilterRow f unit above row) = row := by
  have hfst : (row.zip above).map Prod.fst = row := List.map_fst_zip (Nat.le_of_eq h)
  have hsnd : (row.zip above).map Prod.snd = above := List.map_snd_zip (Nat.le_of_eq h.symm)
  have hlength : (unfilterRow f unit above row).length = row.length := by
    rw [length_unfilterRow, h, Nat.min_self]
  cases hrow : row with
  | nil => rfl
  | cons byte tail =>
    have hpos : 0 < row.length := by
      rw [hrow, List.length_cons]
      omega
    have hback := sweep_filterStep_unfilterStep f (Window.isFilled_start hunit hpos)
      (row.zip above)
    rw [← hrow, filterRow_eq, hlength, unfilterRow_eq]
    rw [hfst, hsnd] at hback
    exact hback

/-! ### Lines -/

theorem number_of_ofNumber? {number : UInt8} {f : Filter}
    (h : Filter.ofNumber? number = some f) : f.number = number := by
  unfold Filter.ofNumber? at h
  split at h <;> cases h <;> rfl

/-- Lines that can be unfiltered are the filtered lines of some rows. -/
theorem exists_rows_of_sweep {unit n : Nat} (hunit : 0 < unit) {above : Bytes} {lines : List Bytes}
    (habove : above.length = n) (hlines : ∀ line ∈ lines, line.length = n + 1)
    (hsome : (sweep (unfilterLine unit) (some above) lines).1.isSome = true) :
    ∃ rows : List (Filter × Bytes), (∀ x ∈ rows, x.2.length = n)
      ∧ lines = (sweep (filterLine unit) above rows).2
      ∧ (sweep (unfilterLine unit) (some above) lines).2 = rows.map fun x => plainLine x.2 := by
  induction lines generalizing above with
  | nil => exact ⟨[], List.forall_mem_nil _, rfl, rfl⟩
  | cons line lines ih =>
    have hfirst := hlines line (List.mem_cons_self ..)
    obtain ⟨number, row, rfl⟩ := List.exists_cons_of_length_eq_add_one hfirst
    have hrow : row.length = n := Nat.succ.inj hfirst
    rw [sweep_cons] at hsome ⊢
    simp only [unfilterLine] at hsome ⊢
    cases hf : Filter.ofNumber? number with
    | none =>
      simp only [hf, sweep_unfilterLine_none] at hsome
      cases hsome
    | some f =>
      simp only [hf] at hsome ⊢
      have hraw : (unfilterRow f unit above row).length = n := by
        rw [length_unfilterRow, habove, hrow, Nat.min_self]
      obtain ⟨rows, hlengths, hfiltered, hplain⟩ := ih hraw
        (fun l hl => hlines l (List.mem_cons_of_mem _ hl)) hsome
      refine ⟨(f, unfilterRow f unit above row) :: rows, ?_, ?_, ?_⟩
      · exact List.forall_mem_cons.2 ⟨hraw, hlengths⟩
      · have hline : filterLine unit above (f, unfilterRow f unit above row)
            = (unfilterRow f unit above row, number :: row) := by
          rw [filterLine, filterRow_unfilterRow hunit (hrow.trans habove.symm),
            number_of_ofNumber? hf]
        rw [sweep_cons, hline, ← hfiltered]
      · rw [hplain]
        rfl

theorem head?_filterLine (unit : Nat) (above : Bytes) (rows : List (Filter × Bytes)) :
    (sweep (filterLine unit) above rows).2.map (fun line => line.head?.bind Filter.ofNumber?)
      = rows.map fun x => some x.1 := by
  induction rows generalizing above with
  | nil => rfl
  | cons x rows ih =>
    rw [sweep_cons, List.map_cons, List.map_cons, ih]
    exact congrArg (· :: rows.map fun x => some x.1) (ofNumber?_number x.1)

/-! ### Whole lines -/

/-- Rows filtered one after the other, each under the raw row before it, every one with the number
of its filter in front. -/
def filterRows? (unit : Nat) (above : Option Bytes) : List (Filter × Bytes) → Option Bytes
  | [] => some []
  | (f, row) :: rows => do
    let filtered ← filterScanline? f above row unit row.length
    let others ← filterRows? unit (some row) rows
    some (f.number :: filtered ++ others)

theorem filterScanline?_eq {f : Filter} {above : Option Bytes} {unit n : Nat} {row : Bytes}
    (habove : (above.getD (noRow n)).length = n) (hrow : row.length = n) :
    filterScanline? f above row unit row.length
      = some (filterRow f unit (above.getD (noRow n)) row) := by
  cases above with
  | none =>
    simp only [filterScanline?, List.take_length]
    rw [hrow, Option.getD_none]
  | some bytes =>
    have hbytes : bytes.length = n := habove
    simp only [filterScanline?, List.take_length]
    rw [if_neg (by omega), Option.getD_some]

theorem filterRows?_eq {unit n : Nat} {above : Option Bytes} {rows : List (Filter × Bytes)}
    (habove : (above.getD (noRow n)).length = n) (h : ∀ x ∈ rows, x.2.length = n) :
    filterRows? unit above rows
      = some (sweep (filterLine unit) (above.getD (noRow n)) rows).2.flatten := by
  induction rows generalizing above with
  | nil => rfl
  | cons x rows ih =>
    have hfirst := h x (List.mem_cons_self ..)
    have hothers := @ih (some x.2) hfirst fun y hy => h y (List.mem_cons_of_mem _ hy)
    rw [filterRows?, filterScanline?_eq habove hfirst, hothers, sweep_cons]
    rfl

theorem filterRows?_none {unit n : Nat} {rows : List (Filter × Bytes)}
    (h : ∀ x ∈ rows, x.2.length = n) :
    filterRows? unit none rows = some (filterLines unit n rows) :=
  filterRows?_eq List.length_replicate h

/-- Data that can be unfiltered is what its rows give when they are filtered. -/
theorem exists_rows_of_unfilter {data lines : Bytes} {rowLength unit : Nat}
    (h : unfilter data rowLength unit = (.ok (), lines)) :
    ∃ rows : List (Filter × Bytes), (∀ x ∈ rows, x.2.length = rowLength)
      ∧ Bytes.wholeGroups (rowLength + 1) data
        = (sweep (filterLine unit) (noRow rowLength) rows).2
      ∧ data = filterLines unit rowLength rows
      ∧ lines = ((rows.map Prod.snd).map plainLine).flatten := by
  rcases unfilter_cases data rowLength unit with
    ⟨-, -, hresult⟩ | ⟨-, -, hresult⟩ | ⟨-, hunit, -, hwhole, hresult⟩
  · rw [hresult] at h
    cases h
  · rw [hresult] at h
    cases h
  · rw [hresult] at h
    have hnone : (noRow rowLength).length = rowLength := List.length_replicate
    have hsome := (resultOf_eq_ok_iff _).1 (congrArg Prod.fst h)
    have hlines : _ = lines := congrArg Prod.snd h
    obtain ⟨rows, hlengths, hgroups, hplain⟩ := exists_rows_of_sweep hunit hnone
      (fun _ => Bytes.length_of_mem_wholeGroups) hsome
    refine ⟨rows, hlengths, hgroups, ?_, ?_⟩
    · rw [filterLines_eq, ← hgroups, Bytes.flatten_wholeGroups hwhole]
    · rw [List.map_map, ← hlines]
      exact congrArg List.flatten hplain

end DialGraphics.Png
