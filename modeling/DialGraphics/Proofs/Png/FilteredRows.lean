import DialGraphics.Proofs.Bytes.Groups
import DialGraphics.Png.Filter

/-!
# Filtered rows

Unfiltering undoes filtering, row by row and for all lines of an image, whichever filter each row
has. Every step of the way back keeps the number of bytes that it should keep.
-/

namespace DialGraphics.Png

/-! ### One row -/

def filterStep (f : Filter) (w : Window) (x : UInt8 × UInt8) : Window × UInt8 :=
  (w.push x.1 x.2, x.1 - w.predict f x.1 x.2)

def unfilterStep (f : Filter) (w : Window) (x : UInt8 × UInt8) : Window × UInt8 :=
  (w.push (x.1 + w.predict f 0 x.2) x.2, x.1 + w.predict f 0 x.2)

theorem filterRow_eq (f : Filter) (unit : Nat) (above row : Bytes) :
    filterRow f unit above row
      = (sweep (filterStep f) (Window.start unit row.length) (row.zip above)).2 := rfl

theorem unfilterRow_eq (f : Filter) (unit : Nat) (above row : Bytes) :
    unfilterRow f unit above row
      = (sweep (unfilterStep f) (Window.start unit row.length) (row.zip above)).2 := rfl

@[simp] theorem length_filterRow (f : Filter) (unit : Nat) (above row : Bytes) :
    (filterRow f unit above row).length = min row.length above.length := by
  rw [filterRow_eq, length_sweep, List.length_zip]

@[simp] theorem length_unfilterRow (f : Filter) (unit : Nat) (above row : Bytes) :
    (unfilterRow f unit above row).length = min row.length above.length := by
  rw [unfilterRow_eq, length_sweep, List.length_zip]

namespace Window

def IsFilled (w : Window) : Prop := w.left ≠ [] ∧ w.upLeft ≠ []

theorem isFilled_start {unit length : Nat} (hunit : 0 < unit) (hlength : 0 < length) :
    (start unit length).IsFilled := by
  have hmin : min unit length ≠ 0 := by omega
  have hzeros : List.replicate (min unit length) (0 : UInt8) ≠ [] := by simpa using hmin
  exact ⟨hzeros, hzeros⟩

theorem IsFilled.push {w : Window} (h : w.IsFilled) (raw b : UInt8) : (w.push raw b).IsFilled := by
  have hleft : w.left.isEmpty = false := by simpa using h.1
  have hup : w.upLeft.isEmpty = false := by simpa using h.2
  constructor
  · simp [Window.push, hleft]
  · simp [Window.push, hup]

/-- With a left neighbour there the prediction does not need the byte itself. -/
theorem IsFilled.predict_eq {w : Window} (h : w.IsFilled) (f : Filter) (self other b : UInt8) :
    w.predict f self b = w.predict f other b := by
  obtain ⟨a, as, ha⟩ := List.exists_cons_of_ne_nil h.1
  simp only [Window.predict]
  rw [ha]
  rfl

end Window

theorem sweep_unfilterStep_filterStep (f : Filter) {w : Window} (hw : w.IsFilled)
    (xs : List (UInt8 × UInt8)) :
    (sweep (unfilterStep f) w ((sweep (filterStep f) w xs).2.zip (xs.map Prod.snd))).2
      = xs.map Prod.fst := by
  -- a window holds raw bytes, so both sweeps push the same one and predict the same byte
  induction xs generalizing w with
  | nil => rfl
  | cons x xs ih =>
    have hraw : x.1 - w.predict f x.1 x.2 + w.predict f 0 x.2 = x.1 := by
      rw [hw.predict_eq f 0 x.1, UInt8.sub_add_cancel]
    have hrest := ih (hw.push x.1 x.2)
    simp only [sweep_cons, List.map_cons, List.zip_cons_cons]
    simp only [filterStep, unfilterStep, hraw]
    rw [← hrest]

theorem unfilterRow_filterRow {f : Filter} {unit : Nat} {above row : Bytes} (hunit : 0 < unit)
    (h : row.length = above.length) :
    unfilterRow f unit above (filterRow f unit above row) = row := by
  have hfst : (row.zip above).map Prod.fst = row := List.map_fst_zip (Nat.le_of_eq h)
  have hsnd : (row.zip above).map Prod.snd = above := List.map_snd_zip (Nat.le_of_eq h.symm)
  have hlength : (filterRow f unit above row).length = row.length := by
    rw [length_filterRow, h, Nat.min_self]
  cases hrow : row with
  | nil => rfl
  | cons byte tail =>
    have hpos : 0 < row.length := by
      rw [hrow, List.length_cons]
      omega
    have hback := sweep_unfilterStep_filterStep f (Window.isFilled_start hunit hpos)
      (row.zip above)
    rw [← hrow, unfilterRow_eq, hlength, filterRow_eq]
    rw [hfst, hsnd] at hback
    exact hback

theorem sweep_unfilterStep_none (w : Window) (xs : List (UInt8 × UInt8)) :
    (sweep (unfilterStep .none) w xs).2 = xs.map Prod.fst := by
  induction xs generalizing w with
  | nil => rfl
  | cons x xs ih =>
    rw [sweep_cons, ih, List.map_cons]
    exact congrArg (· :: xs.map Prod.fst) (UInt8.add_zero x.1)

theorem unfilterRow_none {unit : Nat} {above row : Bytes} (h : row.length ≤ above.length) :
    unfilterRow .none unit above row = row := by
  rw [unfilterRow_eq, sweep_unfilterStep_none, List.map_fst_zip h]

/-! ### Lines -/

@[simp] theorem ofNumber?_number (f : Filter) : Filter.ofNumber? f.number = some f := by
  cases f <;> rfl

def filterLine (unit : Nat) (above : Bytes) (x : Filter × Bytes) : Bytes × Bytes :=
  (x.2, x.1.number :: filterRow x.1 unit above x.2)

theorem filterLines_eq (unit rowLength : Nat) (rows : List (Filter × Bytes)) :
    filterLines unit rowLength rows
      = (sweep (filterLine unit) (noRow rowLength) rows).2.flatten := rfl

def plainLine (row : Bytes) : Bytes := Filter.none.number :: row

theorem sweep_unfilterLine_filterLine {unit : Nat} (hunit : 0 < unit) {above : Bytes}
    {rows : List (Filter × Bytes)} (h : ∀ x ∈ rows, x.2.length = above.length) :
    (sweep (unfilterLine unit) (some above) (sweep (filterLine unit) above rows).2).1.isSome = true
      ∧ (sweep (unfilterLine unit) (some above) (sweep (filterLine unit) above rows).2).2
        = rows.map fun x => plainLine x.2 := by
  induction rows generalizing above with
  | nil => exact ⟨rfl, rfl⟩
  | cons x rows ih =>
    have hx := h x (List.mem_cons_self ..)
    have hline : unfilterLine unit (some above) (filterLine unit above x).2
        = (some x.2, plainLine x.2) := by
      simp only [filterLine, unfilterLine, ofNumber?_number]
      rw [unfilterRow_filterRow hunit hx]
      rfl
    have hrest := @ih x.2 fun y hy =>
      (h y (List.mem_cons_of_mem _ hy)).trans hx.symm
    simp only [sweep_cons, List.map_cons]
    rw [hline]
    exact ⟨hrest.1, congrArg (plainLine x.2 :: ·) hrest.2⟩

theorem length_of_mem_filterLines (unit : Nat) {above : Bytes} {rows : List (Filter × Bytes)}
    (h : ∀ x ∈ rows, x.2.length = above.length) :
    ∀ line ∈ (sweep (filterLine unit) above rows).2, line.length = above.length + 1 := by
  induction rows generalizing above with
  | nil =>
    intro line hline
    cases hline
  | cons x rows ih =>
    have hx := h x (List.mem_cons_self ..)
    have hfirst : (filterLine unit above x).2.length = above.length + 1 := by
      simp only [filterLine, List.length_cons, length_filterRow, hx, Nat.min_self]
    have hrest := @ih x.2 fun y hy => (h y (List.mem_cons_of_mem _ hy)).trans hx.symm
    rw [hx] at hrest
    rw [sweep_cons]
    exact List.forall_mem_cons.2 ⟨hfirst, hrest⟩

theorem length_filterLines (unit : Nat) {rowLength : Nat} {rows : List (Filter × Bytes)}
    (h : ∀ x ∈ rows, x.2.length = rowLength) :
    (filterLines unit rowLength rows).length = (rowLength + 1) * rows.length := by
  have hnone : (noRow rowLength).length = rowLength := List.length_replicate
  have hlines := length_of_mem_filterLines unit fun x hx => (h x hx).trans hnone.symm
  rw [hnone] at hlines
  rw [filterLines_eq, Bytes.length_flatten_of_forall hlines, length_sweep]

/-- What a sweep over lines comes to: a failure once a filter number does not exist. -/
def resultOf (swept : Option Bytes × List Bytes) : Except UnfilterError Unit × Bytes :=
  (if swept.1.isSome then .ok () else .error .malformed, swept.2.flatten)

/-- Without a line it does not matter how long the row of zeros above the first one is. -/
theorem unfilter_of_whole {data : Bytes} {rowLength unit : Nat} (hunit : 0 < unit)
    (hrow : 0 < rowLength) (hspace : rowLength + 1 < addressSpace)
    (hwhole : data.length % (rowLength + 1) = 0) :
    unfilter data rowLength unit
      = resultOf (sweep (unfilterLine unit) (some (noRow rowLength))
          (Bytes.wholeGroups (rowLength + 1) data)) := by
  simp only [unfilter]
  rw [if_neg (by omega), if_neg (by omega), if_neg (not_not_intro hwhole)]
  rcases Nat.eq_zero_or_pos data.length with hzero | hpos
  · rw [List.length_eq_zero_iff.1 hzero, Bytes.wholeGroups_nil]
    rfl
  · have hline := Nat.le_of_dvd hpos (Nat.dvd_of_mod_eq_zero hwhole)
    rw [Nat.min_eq_left (by omega)]
    rfl

/-- Data of any other shape is refused and stays as it is. -/
theorem unfilter_of_misshapen {data : Bytes} {rowLength unit : Nat}
    (hspace : unit = 0 ∨ rowLength + 1 < addressSpace)
    (h : rowLength = 0 ∨ unit = 0 ∨ data.length % (rowLength + 1) ≠ 0) :
    unfilter data rowLength unit = (.error .malformed, data) := by
  simp only [unfilter]
  split
  · rfl
  · rw [if_neg (by omega), if_pos (by omega)]

theorem unfilter_of_tooLong {rowLength unit : Nat} (data : Bytes) (hunit : 0 < unit)
    (hspace : addressSpace ≤ rowLength + 1) :
    unfilter data rowLength unit = (.error .lineTooLong, data) := by
  have hrow : ¬ (rowLength = 0 ∨ unit = 0) := by
    unfold addressSpace at hspace
    omega
  rw [unfilter, if_neg hrow, if_pos hspace]

/-- All that unfiltering can come to. -/
theorem unfilter_cases (data : Bytes) (rowLength unit : Nat) :
    (0 < unit ∧ addressSpace ≤ rowLength + 1
        ∧ unfilter data rowLength unit = (.error .lineTooLong, data))
      ∨ ((unit = 0 ∨ rowLength + 1 < addressSpace)
        ∧ (rowLength = 0 ∨ unit = 0 ∨ data.length % (rowLength + 1) ≠ 0)
        ∧ unfilter data rowLength unit = (.error .malformed, data))
      ∨ (0 < rowLength ∧ 0 < unit ∧ rowLength + 1 < addressSpace
        ∧ data.length % (rowLength + 1) = 0
        ∧ unfilter data rowLength unit
          = resultOf (sweep (unfilterLine unit) (some (noRow rowLength))
              (Bytes.wholeGroups (rowLength + 1) data))) := by
  by_cases hlong : 0 < unit ∧ addressSpace ≤ rowLength + 1
  · exact .inl ⟨hlong.1, hlong.2, unfilter_of_tooLong data hlong.1 hlong.2⟩
  have hspace : unit = 0 ∨ rowLength + 1 < addressSpace := by omega
  by_cases hshape : rowLength = 0 ∨ unit = 0 ∨ data.length % (rowLength + 1) ≠ 0
  · exact .inr (.inl ⟨hspace, hshape, unfilter_of_misshapen hspace hshape⟩)
  · have hrow : 0 < rowLength := by omega
    have hunit : 0 < unit := by omega
    have hfits : rowLength + 1 < addressSpace := by omega
    have hwhole : data.length % (rowLength + 1) = 0 := by omega
    exact .inr (.inr ⟨hrow, hunit, hfits, hwhole, unfilter_of_whole hunit hrow hfits hwhole⟩)

theorem unfilter_flatten {unit rowLength : Nat} {lines : List Bytes} (hunit : 0 < unit)
    (hrow : 0 < rowLength) (hspace : rowLength + 1 < addressSpace)
    (hlines : ∀ line ∈ lines, line.length = rowLength + 1) :
    unfilter lines.flatten rowLength unit
      = resultOf (sweep (unfilterLine unit) (some (noRow rowLength)) lines) := by
  have hwhole : lines.flatten.length % (rowLength + 1) = 0 := by
    rw [Bytes.length_flatten_of_forall hlines, Nat.mul_mod_right]
  rw [unfilter_of_whole hunit hrow hspace hwhole,
    Bytes.wholeGroups_flatten (Nat.succ_pos _) hlines]

/-- Unfiltering undoes filtering for any choice of filters. -/
theorem unfilter_filterLines {unit rowLength : Nat} {rows : List (Filter × Bytes)}
    (hunit : 0 < unit) (hrow : 0 < rowLength) (hspace : rowLength + 1 < addressSpace)
    (h : ∀ x ∈ rows, x.2.length = rowLength) :
    unfilter (filterLines unit rowLength rows) rowLength unit
      = (.ok (), (rows.map fun x => plainLine x.2).flatten) := by
  have hnone : (noRow rowLength).length = rowLength := List.length_replicate
  have habove : ∀ x ∈ rows, x.2.length = (noRow rowLength).length := fun x hx =>
    (h x hx).trans hnone.symm
  have hlines := length_of_mem_filterLines unit habove
  rw [hnone] at hlines
  obtain ⟨hsome, hback⟩ := sweep_unfilterLine_filterLine hunit habove
  rw [filterLines_eq, unfilter_flatten hunit hrow hspace hlines, resultOf, if_pos hsome, hback]

/-! ### Lines that can be unfiltered -/

theorem isSome_ofNumber?_iff {number : UInt8} :
    (Filter.ofNumber? number).isSome = true ↔ number ≤ 4 := by
  have hne : ∀ n : UInt8, (number = n → False) → number.toNat ≠ n.toNat :=
    fun n hn h => hn (UInt8.toNat_inj.1 h)
  unfold Filter.ofNumber?
  split
  case h_6 h0 h1 h2 h3 h4 =>
    have h0 : number.toNat ≠ 0 := hne 0 h0
    have h1 : number.toNat ≠ 1 := hne 1 h1
    have h2 : number.toNat ≠ 2 := hne 2 h2
    have h3 : number.toNat ≠ 3 := hne 3 h3
    have h4 : number.toNat ≠ 4 := hne 4 h4
    have hlarge : ¬ number ≤ 4 := by
      intro hle
      have hle : number.toNat ≤ 4 := UInt8.le_iff_toNat_le.1 hle
      omega
    exact ⟨fun h => (nomatch h), fun h => absurd h hlarge⟩
  all_goals exact ⟨fun _ => by decide, fun _ => rfl⟩

theorem unfilterLine_none (unit : Nat) (line : Bytes) :
    unfilterLine unit none line = (none, line) := rfl

theorem sweep_unfilterLine_none (unit : Nat) (lines : List Bytes) :
    sweep (unfilterLine unit) none lines = (none, lines) := by
  induction lines with
  | nil => rfl
  | cons line lines ih => rw [sweep_cons, unfilterLine_none, ih]

theorem isSome_sweep_unfilterLine (unit : Nat) {above : Bytes} {lines : List Bytes}
    (hlines : ∀ line ∈ lines, line ≠ []) :
    (sweep (unfilterLine unit) (some above) lines).1.isSome = true
      ↔ ∀ line ∈ lines, ∀ number ∈ line.head?, number ≤ 4 := by
  induction lines generalizing above with
  | nil => exact ⟨fun _ _ h => (nomatch h), fun _ => rfl⟩
  | cons line lines ih =>
    obtain ⟨number, row, rfl⟩ := List.exists_cons_of_ne_nil (hlines line (List.mem_cons_self ..))
    have hrest := fun l hl => hlines l (List.mem_cons_of_mem _ hl)
    have hnumber := @isSome_ofNumber?_iff number
    rw [sweep_cons, List.forall_mem_cons, List.head?_cons]
    simp only [Option.mem_some_iff, forall_eq', unfilterLine]
    cases hf : Filter.ofNumber? number with
    | none =>
      rw [hf] at hnumber
      rw [sweep_unfilterLine_none]
      exact ⟨fun h => (nomatch h), fun h => absurd (hnumber.2 h.1) (by decide)⟩
    | some f =>
      rw [hf] at hnumber
      rw [ih hrest]
      exact ⟨fun h => ⟨hnumber.1 rfl, h⟩, fun h => h.2⟩

/-- Lines of a filter number and `rowLength` bytes each, one for each row. -/
def AreLines (rowLength height : Nat) (data : Bytes) : Prop :=
  data.length = (rowLength + 1) * height
    ∧ ∀ row < height, ∀ number ∈ data[(rowLength + 1) * row]?, number ≤ 4

instance (rowLength height : Nat) (data : Bytes) : Decidable (AreLines rowLength height data) :=
  @instDecidableAnd _ _ inferInstance
    (@Nat.decidableBallLT height _ fun _ _ => Option.decidableForallMem ..)

theorem resultOf_eq_ok_iff (swept : Option Bytes × List Bytes) :
    (resultOf swept).1 = .ok () ↔ swept.1.isSome = true := by
  unfold resultOf
  split
  · rename_i hsome
    exact ⟨fun _ => hsome, fun _ => rfl⟩
  · rename_i hsome
    exact ⟨fun h => (nomatch h), fun h => absurd h hsome⟩

theorem unfilter_eq_ok_iff {data : Bytes} {rowLength unit height : Nat} (hunit : 0 < unit)
    (hrow : 0 < rowLength) (hspace : rowLength + 1 < addressSpace)
    (hlength : data.length = (rowLength + 1) * height) :
    (unfilter data rowLength unit).1 = .ok () ↔ AreLines rowLength height data := by
  have hlines : ∀ line ∈ Bytes.wholeGroups (rowLength + 1) data, line ≠ [] := by
    intro line hline hnil
    have := Bytes.length_of_mem_wholeGroups hline
    rw [hnil, List.length_nil] at this
    omega
  have hwhole : data.length % (rowLength + 1) = 0 := by rw [hlength, Nat.mul_mod_right]
  rw [unfilter_of_whole hunit hrow hspace hwhole, resultOf_eq_ok_iff,
    isSome_sweep_unfilterLine unit hlines,
    Bytes.forall_head?_wholeGroups (Nat.succ_pos _) hlength, AreLines]
  exact (and_iff_right hlength).symm

/-! ### Rows without filter numbers -/

theorem stripFilterNumbers_plainLines {rowLength : Nat} {rows : List Bytes}
    (h : ∀ row ∈ rows, row.length = rowLength) :
    stripFilterNumbers (rows.map plainLine).flatten rowLength = rows.flatten := by
  have hlines : ∀ line ∈ rows.map plainLine, line.length = rowLength + 1 := by
    intro line hline
    obtain ⟨row, hrow, rfl⟩ := List.mem_map.1 hline
    rw [plainLine, List.length_cons, h row hrow]
  have htails : (rows.map plainLine).map List.tail = rows := by
    rw [List.map_map]
    exact List.map_id' rows
  rw [stripFilterNumbers, Bytes.wholeGroups_flatten (Nat.succ_pos _) hlines, htails]

/-- The bits of the last byte beyond the first `bits` bits of a row are zero. -/
def IsZeroPadded (bits : Nat) (row : Bytes) : Prop :=
  (row.getLast?.getD 0).toNat % Nat.pow 2 ((8 - bits % 8) % 8) = 0

instance (bits : Nat) (row : Bytes) : Decidable (IsZeroPadded bits row) :=
  inferInstanceAs (Decidable (_ = _))

/-- A mask of high bits rounds down. -/
theorem toNat_and_highBits (byte : UInt8) {n : Nat} (hn : n < 8) :
    (byte &&& (255 <<< UInt8.ofNat n)).toNat = byte.toNat / Nat.pow 2 n * Nat.pow 2 n := by
  have hamount : ((UInt8.ofNat n).toBitVec % 8).toNat = n := by
    show (UInt8.ofNat n).toNat % 8 = n
    rw [UInt8.toNat_ofNat']
    omega
  have hshifts : (byte &&& (255 <<< UInt8.ofNat n)).toBitVec = byte.toBitVec >>> n <<< n := by
    rw [UInt8.toBitVec_and, UInt8.toBitVec_shiftLeft, BitVec.shiftLeft_eq', hamount,
      BitVec.shiftLeft_ushiftRight]
    rfl
  have hlt : byte.toNat / Nat.pow 2 n * Nat.pow 2 n < 256 :=
    Nat.lt_of_le_of_lt (Nat.div_mul_le_self ..) byte.toNat_lt
  show (byte &&& (255 <<< UInt8.ofNat n)).toBitVec.toNat = _
  rw [hshifts, BitVec.toNat_shiftLeft, BitVec.toNat_ushiftRight, Nat.shiftRight_eq_div_pow,
    Nat.shiftLeft_eq]
  exact Nat.mod_eq_of_lt hlt

theorem and_highBits_eq_self {byte : UInt8} {n : Nat} (hn : n < 8)
    (h : byte.toNat % Nat.pow 2 n = 0) : byte &&& (255 <<< UInt8.ofNat n) = byte := by
  apply UInt8.toNat_inj.1
  rw [toNat_and_highBits byte hn, Nat.div_mul_cancel (Nat.dvd_of_mod_eq_zero h)]

theorem clearRowPadding_eq_self {bits : Nat} {row : Bytes} (h : IsZeroPadded bits row) :
    clearRowPadding bits row = row := by
  rw [clearRowPadding]
  split
  · rfl
  · rename_i hbits
    apply List.ext_getElem?
    intro i
    rw [List.getElem?_modify]
    by_cases hi : row.length - 1 = i
    · subst hi
      rw [← List.getLast?_eq_getElem?]
      cases hlast : row.getLast? with
      | none => rfl
      | some byte =>
        have hpower : (8 - bits % 8) % 8 = 8 - bits % 8 := by omega
        rw [IsZeroPadded, hlast, Option.getD_some, hpower] at h
        have hbyte := and_highBits_eq_self (by omega) h
        simp only [Option.map_eq_map, Option.map_some, if_true, hbyte]
    · simp only [if_neg hi, Option.map_eq_map, Option.map_id']

theorem clearPadding_eq_self {bits rowLength : Nat} {rows : List Bytes}
    (hlength : ∀ row ∈ rows, row.length = rowLength) (h : ∀ row ∈ rows, IsZeroPadded bits row) :
    clearPadding rows.flatten rowLength bits = rows.flatten := by
  rw [clearPadding]
  split
  · rfl
  · rename_i hbits
    have hmap : rows.map (clearRowPadding bits) = rows :=
      (List.map_congr_left fun row hrow => clearRowPadding_eq_self (h row hrow)).trans
        (List.map_id' rows)
    rw [Bytes.wholeGroups_flatten (by omega) hlength, hmap]

theorem isZeroPadded_clearRowPadding (bits : Nat) (row : Bytes) :
    IsZeroPadded bits (clearRowPadding bits row) := by
  rw [clearRowPadding]
  split
  · rename_i hbits
    rw [IsZeroPadded, hbits]
    exact Nat.mod_one _
  · rename_i hbits
    have hpower : (8 - bits % 8) % 8 = 8 - bits % 8 := by omega
    rw [IsZeroPadded, hpower, List.getLast?_eq_getElem?, List.length_modify,
      List.getElem?_modify, ← List.getLast?_eq_getElem?]
    simp only [if_true]
    cases row.getLast? with
    | none => exact Nat.zero_mod _
    | some byte =>
      show (byte &&& (255 <<< UInt8.ofNat (8 - bits % 8))).toNat % Nat.pow 2 (8 - bits % 8) = 0
      rw [toNat_and_highBits byte (by omega)]
      exact Nat.mul_mod_left ..

/-! ### Lengths on the way back -/

theorem length_unfilterLine (unit : Nat) {above line : Bytes}
    (h : line.length = above.length + 1) :
    (unfilterLine unit (some above) line).2.length = line.length
      ∧ ∀ raw ∈ (unfilterLine unit (some above) line).1, raw.length = above.length := by
  cases line with
  | nil => cases h
  | cons number row =>
    have hrow : row.length = above.length := Nat.succ.inj h
    cases hf : Filter.ofNumber? number with
    | none =>
      simp only [unfilterLine, hf]
      exact ⟨trivial, fun raw hraw => nomatch hraw⟩
    | some f =>
      simp only [unfilterLine, hf, List.length_cons, length_unfilterRow, hrow, Nat.min_self]
      refine ⟨trivial, fun raw hraw => ?_⟩
      cases hraw
      rw [length_unfilterRow, hrow, Nat.min_self]

theorem length_of_mem_sweep_unfilterLine (unit : Nat) {n : Nat} {state : Option Bytes}
    {lines : List Bytes}
    (hstate : ∀ above ∈ state, above.length = n) (hlines : ∀ line ∈ lines, line.length = n + 1) :
    ∀ line ∈ (sweep (unfilterLine unit) state lines).2, line.length = n + 1 := by
  induction lines generalizing state with
  | nil =>
    intro line hline
    cases hline
  | cons first lines ih =>
    have hfirst := hlines first (List.mem_cons_self ..)
    have hrest := fun line hline => hlines line (List.mem_cons_of_mem _ hline)
    rw [sweep_cons]
    cases state with
    | none =>
      rw [unfilterLine_none]
      exact List.forall_mem_cons.2 ⟨hfirst, ih (fun above ha => nomatch ha) hrest⟩
    | some above =>
      have habove := hstate above rfl
      obtain ⟨hline, hraw⟩ := length_unfilterLine unit (hfirst.trans (by rw [habove]))
      refine List.forall_mem_cons.2 ⟨hline.trans hfirst, ih (fun raw hr => ?_) hrest⟩
      rw [hraw raw hr, habove]

theorem length_of_unfilter {data lines : Bytes} {rowLength unit : Nat}
    {ended : Except UnfilterError Unit} (h : unfilter data rowLength unit = (ended, lines)) :
    lines.length = data.length := by
  have hleft : (unfilter data rowLength unit).2 = lines := congrArg Prod.snd h
  rw [← hleft]
  rcases unfilter_cases data rowLength unit with
    ⟨-, -, hresult⟩ | ⟨-, -, hresult⟩ | ⟨-, -, -, hwhole, hresult⟩
  · rw [hresult]
  · rw [hresult]
  · have habove : ∀ above ∈ some (noRow rowLength), above.length = rowLength := by
      intro above ha
      cases ha
      exact List.length_replicate
    have hgroups : ∀ line ∈ Bytes.wholeGroups (rowLength + 1) data, line.length = rowLength + 1 :=
      fun _ => Bytes.length_of_mem_wholeGroups
    have hlines := length_of_mem_sweep_unfilterLine unit habove hgroups
    rw [hresult, resultOf, Bytes.length_flatten_of_forall hlines, length_sweep,
      Bytes.length_wholeGroups, Nat.mul_div_cancel' (Nat.dvd_of_mod_eq_zero hwhole)]

theorem length_stripFilterNumbers (data : Bytes) (rowLength : Nat) :
    (stripFilterNumbers data rowLength).length = rowLength * (data.length / (rowLength + 1)) := by
  rw [stripFilterNumbers, Bytes.length_flatten_map (n := rowLength), Bytes.length_wholeGroups]
  intro line hline
  rw [List.length_tail, Bytes.length_of_mem_wholeGroups hline, Nat.add_sub_cancel]

theorem length_clearRowPadding (bits : Nat) (row : Bytes) :
    (clearRowPadding bits row).length = row.length := by
  rw [clearRowPadding]
  split
  · rfl
  · rw [List.length_modify]

theorem length_clearPadding {rows : Bytes} {rowLength bits : Nat}
    (h : rows.length % rowLength = 0) :
    (clearPadding rows rowLength bits).length = rows.length := by
  rw [clearPadding]
  split
  · rfl
  · rw [Bytes.length_flatten_map (n := rowLength), Bytes.length_wholeGroups,
      Nat.mul_div_cancel' (Nat.dvd_of_mod_eq_zero h)]
    intro row hrow
    rw [length_clearRowPadding, Bytes.length_of_mem_wholeGroups hrow]

/-- Once the padding is cleared, every row has zeros for the bits that it does not need. -/
theorem isZeroPadded_clearPadding {rows : Bytes} {rowLength height : Nat} (bits : Nat)
    (hrow : 0 < rowLength) (hlength : rows.length = rowLength * height) {row : Nat}
    (hlt : row < height) :
    IsZeroPadded bits (((clearPadding rows rowLength bits).drop (row * rowLength)).take rowLength)
    := by
  rw [clearPadding]
  split
  · rename_i hwhole
    have hbits : bits % 8 = 0 := by omega
    rw [IsZeroPadded, hbits]
    exact Nat.mod_one _
  · have hgroups :
        row < ((Bytes.wholeGroups rowLength rows).map (clearRowPadding bits)).length := by
      rw [List.length_map, Bytes.length_wholeGroups, hlength, Nat.mul_div_cancel_left _ hrow]
      exact hlt
    have hcleared : ∀ r ∈ (Bytes.wholeGroups rowLength rows).map (clearRowPadding bits),
        r.length = rowLength ∧ IsZeroPadded bits r := by
      intro r hr
      obtain ⟨group, hgroup, rfl⟩ := List.mem_map.1 hr
      rw [length_clearRowPadding]
      exact ⟨Bytes.length_of_mem_wholeGroups hgroup, isZeroPadded_clearRowPadding bits group⟩
    rw [Bytes.take_drop_flatten (fun r hr => (hcleared r hr).1) (List.getElem?_eq_getElem hgroups)]
    exact (hcleared _ (List.getElem_mem hgroups)).2

end DialGraphics.Png
