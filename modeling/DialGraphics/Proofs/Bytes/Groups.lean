import DialGraphics.Bytes.Sweep

/-!
# Groups of equal length

Rows of one length that are joined and cut again come back as they were, and bytes that are a whole
number of groups are the groups joined.
-/

namespace DialGraphics

variable {σ α β γ : Type}

theorem sweep_map (step : σ → β → σ × γ) (f : α → β) (state : σ) (xs : List α) :
    sweep step state (xs.map f) = sweep (fun s x => step s (f x)) state xs := by
  induction xs generalizing state with
  | nil => rfl
  | cons x xs ih =>
    rw [List.map_cons, sweep_cons, sweep_cons, ih]

theorem sweep_take (step : σ → α → σ × β) (state : σ) (xs : List α) (n : Nat) :
    (sweep step state (xs.take n)).2 = (sweep step state xs).2.take n := by
  induction xs generalizing state n with
  | nil => simp
  | cons x xs ih =>
    cases n with
    | zero => rfl
    | succ n =>
      rw [List.take_succ_cons, sweep_cons, sweep_cons, List.take_succ_cons, ih]

theorem getElem?_sweep (step : σ → α → σ × β) (state : σ) (xs : List α) (i : Nat) :
    (sweep step state xs).2[i]?
      = xs[i]?.map fun x => (step (sweep step state (xs.take i)).1 x).2 := by
  induction xs generalizing state i with
  | nil => rfl
  | cons x xs ih =>
    rw [sweep_cons]
    cases i with
    | zero => rfl
    | succ i =>
      rw [List.getElem?_cons_succ, List.getElem?_cons_succ, ih, List.take_succ_cons, sweep_cons]

namespace Bytes

/-! ### Cutting -/

theorem slice?_of_take {limit start n : Nat} {bytes part : Bytes}
    (h : slice? start n (bytes.take limit) = some part) : slice? start n bytes = some part := by
  rw [slice?_eq] at h ⊢
  split at h
  · rename_i hle
    rw [List.length_take] at hle
    rw [List.drop_take, List.take_take, Nat.min_eq_left (by omega)] at h
    rw [if_pos (by omega)]
    exact h
  · cases h

theorem groups_succ (n count : Nat) (bytes : Bytes) :
    groups n (count + 1) bytes = bytes.take n :: groups n count (bytes.drop n) := by
  simp only [groups]
  rw [List.range_succ_eq_map, sweep_cons, sweep_map]

theorem groups_concat (n count : Nat) (bytes : Bytes) :
    groups n (count + 1) bytes = groups n count bytes ++ [(bytes.drop (count * n)).take n] := by
  induction count generalizing bytes with
  | zero =>
    rw [groups_succ, Nat.zero_mul]
    rfl
  | succ count ih =>
    rw [groups_succ, ih, groups_succ n count, List.drop_drop, Nat.succ_mul, Nat.add_comm n]
    rfl

theorem flatten_groups (n count : Nat) (bytes : Bytes) :
    (groups n count bytes).flatten = bytes.take (n * count) := by
  induction count generalizing bytes with
  | zero => rfl
  | succ count ih =>
    rw [groups_succ, List.flatten_cons, ih, Nat.mul_succ, Nat.add_comm, List.take_add]

theorem length_of_mem_groups {n count : Nat} {bytes group : Bytes}
    (h : n * count ≤ bytes.length) (hg : group ∈ groups n count bytes) : group.length = n := by
  induction count generalizing bytes with
  | zero => simp [groups] at hg
  | succ count ih =>
    rw [Nat.mul_succ] at h
    rw [groups_succ] at hg
    rcases List.mem_cons.1 hg with hg | hg
    · rw [hg, List.length_take]
      omega
    · exact ih (by rw [List.length_drop]; omega) hg

theorem length_of_mem_wholeGroups {n : Nat} {bytes group : Bytes}
    (hg : group ∈ wholeGroups n bytes) : group.length = n :=
  length_of_mem_groups (Nat.mul_div_le _ _) hg

@[simp] theorem length_wholeGroups (n : Nat) (bytes : Bytes) :
    (wholeGroups n bytes).length = bytes.length / n := by
  rw [wholeGroups, length_groups]

theorem wholeGroups_nil (n : Nat) : wholeGroups n [] = [] := by
  rw [wholeGroups, List.length_nil, Nat.zero_div]
  rfl

theorem flatten_wholeGroups {n : Nat} {bytes : Bytes} (h : bytes.length % n = 0) :
    (wholeGroups n bytes).flatten = bytes := by
  rw [wholeGroups, flatten_groups, Nat.mul_div_cancel' (Nat.dvd_of_mod_eq_zero h),
    List.take_length]

theorem getElem?_groups {n count : Nat} {bytes : Bytes} {i : Nat} (hi : i < count) :
    (groups n count bytes)[i]? = some ((bytes.drop (i * n)).take n) := by
  induction count generalizing bytes i with
  | zero => exact absurd hi (Nat.not_lt_zero _)
  | succ count ih =>
    rw [groups_succ]
    cases i with
    | zero => rw [List.getElem?_cons_zero, Nat.zero_mul, List.drop_zero]
    | succ i =>
      rw [List.getElem?_cons_succ, ih (Nat.lt_of_succ_lt_succ hi), List.drop_drop, Nat.succ_mul,
        Nat.add_comm n]

theorem head?_take_drop {n : Nat} (hn : 0 < n) {bytes : Bytes} {i : Nat} :
    ((bytes.drop (i * n)).take n).head? = bytes[n * i]? := by
  rw [List.head?_take, if_neg (Nat.ne_of_gt hn), List.head?_drop, Nat.mul_comm]

/-- What is true of the first byte of each group. -/
theorem forall_head?_wholeGroups {n count : Nat} {bytes : Bytes} {P : UInt8 → Prop} (hn : 0 < n)
    (hlength : bytes.length = n * count) :
    (∀ group ∈ wholeGroups n bytes, ∀ b ∈ group.head?, P b)
      ↔ ∀ i < count, ∀ b ∈ bytes[n * i]?, P b := by
  have hgroups : wholeGroups n bytes = groups n count bytes := by
    rw [wholeGroups, hlength, Nat.mul_div_cancel_left _ hn]
  rw [hgroups]
  constructor
  · intro h i hi
    rw [← head?_take_drop hn]
    exact h _ (List.mem_of_getElem? (getElem?_groups hi))
  · intro h group hgroup
    obtain ⟨i, hi⟩ := List.mem_iff_getElem?.1 hgroup
    have hlt : i < count := by
      have := (List.getElem?_eq_some_iff.1 hi).1
      rwa [length_groups] at this
    rw [getElem?_groups hlt] at hi
    cases hi
    rw [head?_take_drop hn]
    exact h i hlt

/-! ### Joining -/

theorem length_flatten_of_forall {n : Nat} {rows : List Bytes}
    (h : ∀ row ∈ rows, row.length = n) : rows.flatten.length = n * rows.length := by
  induction rows with
  | nil => rfl
  | cons row rows ih =>
    have hrow := h row (List.mem_cons_self ..)
    have hrows := ih fun r hr => h r (List.mem_cons_of_mem _ hr)
    rw [List.flatten_cons, List.length_append, hrow, hrows, List.length_cons, Nat.mul_succ]
    omega

theorem groups_flatten {n : Nat} {rows : List Bytes} (h : ∀ row ∈ rows, row.length = n) :
    groups n rows.length rows.flatten = rows := by
  induction rows with
  | nil => rfl
  | cons row rows ih =>
    have hrow := h row (List.mem_cons_self ..)
    have hrows := ih fun r hr => h r (List.mem_cons_of_mem _ hr)
    rw [List.length_cons, groups_succ, List.flatten_cons, ← hrow, List.take_left, List.drop_left,
      hrow, hrows]

theorem wholeGroups_flatten {n : Nat} {rows : List Bytes} (hn : 0 < n)
    (h : ∀ row ∈ rows, row.length = n) : wholeGroups n rows.flatten = rows := by
  rw [wholeGroups, length_flatten_of_forall h, Nat.mul_div_cancel_left _ hn]
  exact groups_flatten h

theorem take_drop_flatten {n i : Nat} {rows : List Bytes} {row : Bytes}
    (h : ∀ row ∈ rows, row.length = n) (hrow : rows[i]? = some row) :
    (rows.flatten.drop (i * n)).take n = row := by
  obtain ⟨hi, -⟩ := List.getElem?_eq_some_iff.1 hrow
  have hgroup : (groups n rows.length rows.flatten)[i]?
      = some ((rows.flatten.drop (i * n)).take n) := getElem?_groups hi
  rw [groups_flatten h, hrow] at hgroup
  exact (Option.some.inj hgroup).symm

theorem getElem?_flatten {n i k : Nat} {rows : List Bytes} {row : Bytes}
    (h : ∀ row ∈ rows, row.length = n) (hrow : rows[i]? = some row) (hk : k < n) :
    rows.flatten[i * n + k]? = row[k]? := by
  rw [← take_drop_flatten h hrow, List.getElem?_take_of_lt hk, List.getElem?_drop]

theorem fit_eq_self {n : Nat} {bytes : Bytes} (h : bytes.length = n) : fit n bytes = bytes := by
  have htake : bytes.take n = bytes := List.take_of_length_le (Nat.le_of_eq h)
  rw [fit, htake, h, Nat.sub_self]
  exact List.append_nil bytes

theorem length_flatten_map {n : Nat} {rows : List Bytes} {f : Bytes → Bytes}
    (h : ∀ row ∈ rows, (f row).length = n) : (rows.map f).flatten.length = n * rows.length := by
  rw [length_flatten_of_forall (n := n), List.length_map]
  intro row hrow
  obtain ⟨r, hr, rfl⟩ := List.mem_map.1 hrow
  exact h r hr

end Bytes

end DialGraphics
