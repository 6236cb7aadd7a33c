import DialGraphics.Proofs.Png.Refiltering

/-!
# How far unfiltering gets

Unfiltering stops at the first line whose filter number does not exist. What is in front of that
line is unfiltered, as if nothing else were there; the line and everything behind it stay as they
are. So a second run ends as the first one did and changes nothing.
-/

namespace DialGraphics.Png

/-! ### Lines -/

theorem lt_of_ofNumber?_eq_none {number : UInt8} (h : Filter.ofNumber? number = none) :
    4 < number := by
  refine UInt8.not_le.1 fun hle => ?_
  have hsome := isSome_ofNumber?_iff.2 hle
  rw [h] at hsome
  cases hsome

/-- A sweep that fails does so at its first bad line. -/
theorem exists_bad_line {unit : Nat} {above : Bytes} {lines : List Bytes}
    (hlines : ∀ line ∈ lines, line ≠ [])
    (h : ¬ (sweep (unfilterLine unit) (some above) lines).1.isSome = true) :
    ∃ good bad later, lines = good ++ bad :: later
      ∧ (sweep (unfilterLine unit) (some above) good).1.isSome = true
      ∧ (∃ number ∈ bad.head?, 4 < number)
      ∧ (sweep (unfilterLine unit) (some above) lines).2
        = (sweep (unfilterLine unit) (some above) good).2 ++ bad :: later := by
  induction lines generalizing above with
  | nil => exact absurd rfl h
  | cons line lines ih =>
    obtain ⟨number, row, rfl⟩ := List.exists_cons_of_ne_nil (hlines line (List.mem_cons_self ..))
    have hrest := fun l hl => hlines l (List.mem_cons_of_mem _ hl)
    rw [sweep_cons] at h ⊢
    simp only [unfilterLine] at h ⊢
    cases hf : Filter.ofNumber? number with
    | none =>
      refine ⟨[], number :: row, lines, rfl, rfl, ⟨number, rfl, lt_of_ofNumber?_eq_none hf⟩, ?_⟩
      simp only [sweep_unfilterLine_none]
      rfl
    | some f =>
      simp only [hf] at h ⊢
      obtain ⟨good, bad, later, rfl, hgood, hbad, hswept⟩ := ih hrest h
      refine ⟨(number :: row) :: good, bad, later, rfl, ?_, hbad, ?_⟩
      · rw [sweep_cons]
        simp only [unfilterLine, hf]
        exact hgood
      · rw [hswept, sweep_cons]
        simp only [unfilterLine, hf]
        rfl

/-- Lines that are unfiltered already have the filter that changes nothing. -/
theorem sweep_unfilterLine_again {unit n : Nat} {above : Bytes} {lines : List Bytes}
    (habove : above.length = n) (hlines : ∀ line ∈ lines, line.length = n + 1) :
    sweep (unfilterLine unit) (some above) (sweep (unfilterLine unit) (some above) lines).2
      = sweep (unfilterLine unit) (some above) lines := by
  induction lines generalizing above with
  | nil => rfl
  | cons line lines ih =>
    have hfirst := hlines line (List.mem_cons_self ..)
    obtain ⟨number, row, rfl⟩ := List.exists_cons_of_length_eq_add_one hfirst
    have hrow : row.length = n := Nat.succ.inj hfirst
    have hrest := fun l hl => hlines l (List.mem_cons_of_mem _ hl)
    rw [sweep_cons]
    simp only [unfilterLine]
    cases hf : Filter.ofNumber? number with
    | none =>
      simp only [sweep_unfilterLine_none, sweep_cons, unfilterLine, hf]
    | some f =>
      have hraw : (unfilterRow f unit above row).length = n := by
        rw [length_unfilterRow, habove, hrow, Nat.min_self]
      have hplain : unfilterRow .none unit above (unfilterRow f unit above row)
          = unfilterRow f unit above row := unfilterRow_none (by omega)
      simp only [sweep_cons, unfilterLine, ofNumber?_number, hplain]
      rw [ih hraw hrest]

/-! ### Whole lines -/

variable {data : Bytes} {rowLength unit : Nat}

/-- Lines that could be unfiltered have the number of the filter that changes nothing. -/
theorem number_of_unfilter {done : Bytes} (h : unfilter data rowLength unit = (.ok (), done))
    {row : Nat} (hrow : (rowLength + 1) * row < data.length) :
    done[(rowLength + 1) * row]? = some 0 := by
  have hsize := length_of_unfilter h
  obtain ⟨rows, hrows, -, -, rfl⟩ := exists_rows_of_unfilter h
  have hlines : ∀ line ∈ (rows.map Prod.snd).map plainLine, line.length = rowLength + 1 := by
    rw [List.map_map]
    exact List.forall_mem_map.2 fun x hx => congrArg Nat.succ (hrows x hx)
  have hlt : row < ((rows.map Prod.snd).map plainLine).length := by
    rw [← hsize, Bytes.length_flatten_of_forall hlines] at hrow
    exact Nat.lt_of_mul_lt_mul_left hrow
  obtain ⟨x, hx⟩ := List.mem_map.1 (List.getElem_mem hlt)
  have hline := Bytes.take_drop_flatten hlines (List.getElem?_eq_getElem hlt)
  rw [← Bytes.head?_take_drop (Nat.succ_pos _), hline, ← hx.2]
  rfl

theorem unfilter_again (data : Bytes) (rowLength unit : Nat) :
    unfilter (unfilter data rowLength unit).2 rowLength unit = unfilter data rowLength unit := by
  rcases unfilter_cases data rowLength unit with
    ⟨-, -, hresult⟩ | ⟨-, -, hresult⟩ | ⟨hrow, hunit, hspace, -, hresult⟩
  · rw [hresult, hresult]
  · rw [hresult, hresult]
  · have hnone : (noRow rowLength).length = rowLength := List.length_replicate
    have habove : ∀ above ∈ some (noRow rowLength), above.length = rowLength :=
      fun _ h => Option.some.inj h ▸ hnone
    have hgroups : ∀ line ∈ Bytes.wholeGroups (rowLength + 1) data, line.length = rowLength + 1 :=
      fun _ => Bytes.length_of_mem_wholeGroups
    have hlines := length_of_mem_sweep_unfilterLine unit habove hgroups
    rw [hresult]
    exact (unfilter_flatten hunit hrow hspace hlines).trans
      (congrArg resultOf (sweep_unfilterLine_again hnone hgroups))

/-- What is asked of unfiltering in place: it says whether the data can be unfiltered, leaves data
of the wrong shape alone, has unfiltered all lines in front of the one that it stopped at, and would
not do anything the next time. -/
structure UnfiltersCleanly (data : Bytes) (rowLength unit : Nat) : Prop where
  ends : (unfilter data rowLength unit).1 = .ok ()
    ∨ (unfilter data rowLength unit).1 = .error .malformed
  ok_iff : (unfilter data rowLength unit).1 = .ok ()
    ↔ 0 < rowLength ∧ 0 < unit ∧ ∃ height, AreLines rowLength height data
  misshapen : rowLength = 0 ∨ unit = 0 ∨ ¬ rowLength + 1 ∣ data.length →
    (unfilter data rowLength unit).2 = data
  stopped : 0 < rowLength → 0 < unit → rowLength + 1 ∣ data.length →
    (unfilter data rowLength unit).1 = .error .malformed →
    ∃ k front rest done, data = front ++ rest ∧ AreLines rowLength k front
      ∧ (∃ number ∈ rest.head?, 4 < number)
      ∧ unfilter front rowLength unit = (.ok (), done)
      ∧ (∀ row < k, done[(rowLength + 1) * row]? = some 0)
      ∧ (unfilter data rowLength unit).2 = done ++ rest
  again : unfilter (unfilter data rowLength unit).2 rowLength unit = unfilter data rowLength unit

theorem exists_areLines_iff :
    (∃ height, AreLines rowLength height data)
      ↔ AreLines rowLength (data.length / (rowLength + 1)) data := by
  refine ⟨?_, fun h => ⟨_, h⟩⟩
  rintro ⟨height, hlines⟩
  rwa [hlines.1, Nat.mul_div_cancel_left _ (Nat.succ_pos _)]

/-- Where a sweep over the lines of `data` fails, the lines in front have been unfiltered. -/
theorem exists_front_of_stopped (hrow : 0 < rowLength) (hunit : 0 < unit)
    (hspace : rowLength + 1 < addressSpace) (hwhole : data.length % (rowLength + 1) = 0)
    (h : (unfilter data rowLength unit).1 = .error .malformed) :
    ∃ k front rest done, data = front ++ rest ∧ AreLines rowLength k front
      ∧ (∃ number ∈ rest.head?, 4 < number)
      ∧ unfilter front rowLength unit = (.ok (), done)
      ∧ (∀ row < k, done[(rowLength + 1) * row]? = some 0)
      ∧ (unfilter data rowLength unit).2 = done ++ rest := by
  have hgroups : ∀ line ∈ Bytes.wholeGroups (rowLength + 1) data, line.length = rowLength + 1 :=
    fun _ => Bytes.length_of_mem_wholeGroups
  have hnonempty : ∀ line ∈ Bytes.wholeGroups (rowLength + 1) data, line ≠ [] :=
    fun line hline => List.ne_nil_of_length_eq_add_one (hgroups line hline)
  have hresult := unfilter_of_whole hunit hrow hspace hwhole
  have hfailed : ¬ (sweep (unfilterLine unit) (some (noRow rowLength))
      (Bytes.wholeGroups (rowLength + 1) data)).1.isSome = true := by
    rw [← resultOf_eq_ok_iff, ← hresult, h]
    exact fun hok => nomatch hok
  obtain ⟨good, bad, later, hlines, hgood, ⟨number, hnumber, hbad⟩, hswept⟩ :=
    exists_bad_line hnonempty hfailed
  have hfront : ∀ line ∈ good, line.length = rowLength + 1 := fun line hline =>
    hgroups line (hlines ▸ List.mem_append_left _ hline)
  have hlength := Bytes.length_flatten_of_forall hfront
  have hdone : unfilter good.flatten rowLength unit = (.ok (), (sweep (unfilterLine unit)
      (some (noRow rowLength)) good).2.flatten) := by
    rw [unfilter_flatten hunit hrow hspace hfront, resultOf, if_pos hgood]
  refine ⟨good.length, good.flatten, (bad :: later).flatten, _, ?_, ?_, ⟨number, ?_, hbad⟩, hdone,
    fun row hlt => number_of_unfilter hdone ?_, ?_⟩
  · rw [← List.flatten_append, ← hlines, Bytes.flatten_wholeGroups hwhole]
  · exact (unfilter_eq_ok_iff hunit hrow hspace hlength).1 (congrArg Prod.fst hdone)
  · rw [List.flatten_cons, List.head?_append, hnumber]
    rfl
  · rw [hlength]
    exact Nat.mul_lt_mul_of_pos_left hlt (Nat.succ_pos _)
  · rw [hresult, ← List.flatten_append, ← hswept, resultOf]

theorem unfiltersCleanly_iff :
    UnfiltersCleanly data rowLength unit ↔ unit = 0 ∨ rowLength + 1 < addressSpace := by
  constructor
  · intro h
    rcases unfilter_cases data rowLength unit with
      ⟨-, -, hresult⟩ | ⟨hspace, -, -⟩ | ⟨-, -, hspace, -, -⟩
    · have hends := h.ends
      rw [hresult] at hends
      rcases hends with hok | hmalformed
      · cases hok
      · cases hmalformed
    · exact hspace
    · exact Or.inr hspace
  · intro hspace
    rcases unfilter_cases data rowLength unit with
      ⟨hunit, hlong, -⟩ | ⟨-, hshape, hresult⟩ | ⟨hrow, hunit, hfits, hwhole, hresult⟩
    · omega
    · refine ⟨?_, ?_, ?_, ?_, unfilter_again ..⟩
      · rw [hresult]
        exact Or.inr rfl
      · rw [hresult]
        refine ⟨fun h => (nomatch h), ?_⟩
        rintro ⟨hrow, hunit, height, hlines⟩
        rw [hlines.1, Nat.mul_mod_right] at hshape
        omega
      · rw [hresult]
        exact fun _ => rfl
      · intro hrow hunit hwhole
        have := Nat.mod_eq_zero_of_dvd hwhole
        omega
    · have hlength : data.length = (rowLength + 1) * (data.length / (rowLength + 1)) :=
        (Nat.mul_div_cancel' (Nat.dvd_of_mod_eq_zero hwhole)).symm
      refine ⟨?_, ?_, ?_, fun _ _ _ => exists_front_of_stopped hrow hunit hfits hwhole,
        unfilter_again ..⟩
      · rw [hresult, resultOf]
        split
        · exact Or.inl rfl
        · exact Or.inr rfl
      · rw [unfilter_eq_ok_iff hunit hrow hfits hlength, exists_areLines_iff]
        exact ⟨fun h => ⟨hrow, hunit, h⟩, fun h => h.2.2⟩
      · rintro (h | h | h)
        · omega
        · omega
        · exact absurd (Nat.dvd_of_mod_eq_zero hwhole) h

end DialGraphics.Png
