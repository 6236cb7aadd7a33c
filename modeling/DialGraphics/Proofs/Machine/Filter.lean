import DialGraphics.Machine.Filter
import DialGraphics.Proofs.Png.FilteredRows

/-!
# Filters fit the machine

Unfiltering in place never leaves the bytes of the rows, and it gives what the sweep over the rows
gives. In between, a row holds raw bytes up to the place where the work is, and filtered ones behind
it; while the rows are moved together, the front of the data holds rows, and the rest is as it was.
-/

namespace DialGraphics

namespace Png

/-! ### One byte of a row -/

/-- A byte that is pushed takes its turn behind the window. -/
theorem drop_push (window : Bytes) (byte : UInt8) (bytes : Bytes) (n : Nat) :
    ((window.tail ++ if window.isEmpty then [] else [byte]) ++ bytes).drop n
      = (window ++ byte :: bytes).drop (n + 1) := by
  cases window with
  | nil => rfl
  | cons a as => simp

theorem left_sweep_filterStep (f : Filter) (w : Window) (xs : List (UInt8 × UInt8)) :
    (sweep (filterStep f) w xs).1.left = (w.left ++ xs.map Prod.fst).drop xs.length := by
  induction xs generalizing w with
  | nil => exact (List.append_nil _).symm
  | cons x xs ih =>
    rw [sweep_cons, ih, List.map_cons, List.length_cons]
    exact drop_push ..

theorem left_sweep_unfilterStep (f : Filter) (w : Window) (xs : List (UInt8 × UInt8)) :
    (sweep (unfilterStep f) w xs).1.left
      = (w.left ++ (sweep (unfilterStep f) w xs).2).drop xs.length := by
  induction xs generalizing w with
  | nil => exact (List.append_nil _).symm
  | cons x xs ih =>
    rw [sweep_cons, ih, List.length_cons]
    exact drop_push ..

/-- Both ways the bytes above go through the window as they are. -/
theorem upLeft_sweep (step : Window → UInt8 × UInt8 → Window × UInt8)
    (hstep : ∀ w x, ∃ raw, (step w x).1 = w.push raw x.2) (w : Window)
    (xs : List (UInt8 × UInt8)) :
    (sweep step w xs).1.upLeft = (w.upLeft ++ xs.map Prod.snd).drop xs.length := by
  induction xs generalizing w with
  | nil => exact (List.append_nil _).symm
  | cons x xs ih =>
    obtain ⟨raw, hraw⟩ := hstep w x
    rw [sweep_cons, hraw, ih, List.map_cons, List.length_cons]
    exact drop_push ..

/-- The byte one unit to the left, zero in front of the row. -/
def unitBack (row : Bytes) (unit i : Nat) : UInt8 := if unit ≤ i then row.getD (i - unit) 0 else 0

theorem headD_drop_window {unit length i : Nat} {row : Bytes} {default : UInt8} (hunit : 0 < unit)
    (hi : i < length) (hrow : row.length = length) :
    ((List.replicate (min unit length) 0 ++ row.take i).drop i).headD default
      = unitBack row unit i := by
  have hzeros : (List.replicate (min unit length) (0 : UInt8)).length = min unit length :=
    List.length_replicate
  rw [List.headD_eq_head?_getD, List.head?_drop, unitBack]
  split
  · rename_i hback
    have hlt : i - unit < row.length := by omega
    have hplace : i - min unit length = i - unit := by omega
    rw [List.getElem?_append_right (by omega), hzeros, hplace, List.getElem?_take_of_lt (by omega),
      List.getD_eq_getElem?_getD, List.getElem?_eq_getElem hlt]
    rfl
  · rw [List.getElem?_append_left (by omega), List.getElem?_replicate_of_lt (by omega)]
    rfl

theorem length_take_zip {above row : Bytes} (h : above.length = row.length) {i : Nat}
    (hi : i < row.length) : ((row.zip above).take i).length = i := by
  rw [List.length_take, List.length_zip]
  omega

theorem map_snd_take_zip {above row : Bytes} (h : above.length = row.length) (i : Nat) :
    ((row.zip above).take i).map Prod.snd = above.take i := by
  rw [List.map_take, List.map_snd_zip (Nat.le_of_eq h)]

theorem getElem?_zip_getD {above row : Bytes} (h : above.length = row.length) {i : Nat}
    {byte : UInt8} (hbyte : row[i]? = some byte) :
    (row.zip above)[i]? = some (byte, above.getD i 0) := by
  obtain ⟨hi, -⟩ := List.getElem?_eq_some_iff.1 hbyte
  have habove : above[i]? = some (above.getD i 0) := by
    rw [List.getD_eq_getElem?_getD, List.getElem?_eq_getElem (h ▸ hi)]
    rfl
  exact List.getElem?_zip_eq_some.2 ⟨hbyte, habove⟩

/-- The value that is predicted for a byte is predicted from raw bytes that come before it. -/
theorem predict_eq_unitBack {f : Filter} {unit : Nat} {w : Window} {raw above row : Bytes}
    {self : UInt8} (hunit : 0 < unit) (h : above.length = row.length)
    (hraw : raw.length = row.length) {i : Nat} (hi : i < row.length)
    (hleft : w.left = ((Window.start unit row.length).left ++ raw.take i).drop i)
    (hup : w.upLeft = ((Window.start unit row.length).upLeft ++ above.take i).drop i) :
    w.predict f self (above.getD i 0)
      = f.predict (unitBack raw unit i) (above.getD i 0) (unitBack above unit i) := by
  rw [Window.predict, hleft, hup]
  simp only [Window.start]
  rw [headD_drop_window hunit hi hraw, headD_drop_window hunit hi h]

/-- A filtered byte from the raw one, and from raw bytes that come before it. -/
theorem getElem?_filterRow {f : Filter} {unit : Nat} {above row : Bytes} (hunit : 0 < unit)
    (h : above.length = row.length) {i : Nat} {byte : UInt8} (hbyte : row[i]? = some byte) :
    (filterRow f unit above row)[i]?
      = some (byte - f.predict (unitBack row unit i) (above.getD i 0) (unitBack above unit i)) := by
  obtain ⟨hi, -⟩ := List.getElem?_eq_some_iff.1 hbyte
  have hfirsts : ((row.zip above).take i).map Prod.fst = row.take i := by
    rw [List.map_take, List.map_fst_zip (Nat.le_of_eq h.symm)]
  have hleft := left_sweep_filterStep f (Window.start unit row.length) ((row.zip above).take i)
  have hup := upLeft_sweep (filterStep f) (fun _ _ => ⟨_, rfl⟩)
    (Window.start unit row.length) ((row.zip above).take i)
  rw [length_take_zip h hi, hfirsts] at hleft
  rw [length_take_zip h hi, map_snd_take_zip h] at hup
  rw [filterRow_eq, getElem?_sweep, getElem?_zip_getD h hbyte]
  exact congrArg (fun p => some (byte - p)) (predict_eq_unitBack hunit h rfl hi hleft hup)

/-- A raw byte from the filtered one, and from raw bytes that come before it. -/
theorem getElem?_unfilterRow {f : Filter} {unit : Nat} {above row : Bytes} (hunit : 0 < unit)
    (h : above.length = row.length) {i : Nat} {byte : UInt8} (hbyte : row[i]? = some byte) :
    (unfilterRow f unit above row)[i]?
      = some (byte + f.predict (unitBack (unfilterRow f unit above row) unit i) (above.getD i 0)
          (unitBack above unit i)) := by
  obtain ⟨hi, -⟩ := List.getElem?_eq_some_iff.1 hbyte
  have hraw : (unfilterRow f unit above row).length = row.length := by
    rw [length_unfilterRow, h, Nat.min_self]
  have hleft := left_sweep_unfilterStep f (Window.start unit row.length) ((row.zip above).take i)
  have hup := upLeft_sweep (unfilterStep f) (fun _ _ => ⟨_, rfl⟩)
    (Window.start unit row.length) ((row.zip above).take i)
  rw [length_take_zip h hi, sweep_take, ← unfilterRow_eq] at hleft
  rw [length_take_zip h hi, map_snd_take_zip h] at hup
  rw [unfilterRow_eq, getElem?_sweep, getElem?_zip_getD h hbyte, ← unfilterRow_eq]
  exact congrArg (fun p => some (byte + p)) (predict_eq_unitBack hunit h hraw hi hleft hup)

end Png

namespace Machine

open Png

theorem nearest_eq (a b c : UInt8) : nearest a b c = .ok (Filter.nearest a b c) := by
  have ha := a.toNat_lt
  have hb := b.toNat_lt
  have hc := c.toNat_lt
  unfold nearest Filter.nearest
  rw [signed_eq (by omega), ok_bind, signed_eq (by omega), ok_bind, signed_eq (by omega), ok_bind,
    signed_eq (by omega), ok_bind, signed_eq (by omega), ok_bind, signed_eq (by omega), ok_bind,
    signed_eq (by omega), ok_bind, signed_eq (by omega), ok_bind]
  simp only [Int.ofNat_le]

theorem predict_eq (f : Filter) (a b c : UInt8) : predict f a b c = .ok (f.predict a b c) := by
  cases f with
  | average =>
    have ha := a.toNat_lt
    have hb := b.toNat_lt
    simp only [predict, Filter.predict]
    rw [add_eq (by omega), ok_bind]
  | paeth => exact nearest_eq a b c
  | _ => rfl

theorem oneUnitBack_eq {row : Bytes} {unit i : Nat} (hunit : 0 < unit) (hi : i ≤ row.length) :
    oneUnitBack row unit i = .ok (unitBack row unit i) := by
  unfold oneUnitBack unitBack
  split
  · rename_i hback
    have hlt : i - unit < row.length := by omega
    rw [sub_eq hback, ok_bind, get_eq (List.getElem?_eq_getElem hlt), List.getD_eq_getElem?_getD,
      List.getElem?_eq_getElem hlt]
    rfl
  · rfl

/-! ### One row -/

/-- A row that is raw in front of position `i`. -/
def rawUpTo (raw row : Bytes) (i : Nat) : Bytes := raw.take i ++ row.drop i

theorem rawUpTo_succ {raw row : Bytes} {i : Nat} {byte : UInt8} (hraw : raw[i]? = some byte)
    (hi : i < row.length) : (rawUpTo raw row i).set i byte = rawUpTo raw row (i + 1) := by
  obtain ⟨hlt, hbyte⟩ := List.getElem?_eq_some_iff.1 hraw
  have hfront : (raw.take i).length = i := List.length_take_of_le (Nat.le_of_lt hlt)
  rw [rawUpTo, rawUpTo, List.set_append_right _ _ (by omega), hfront, Nat.sub_self,
    List.drop_eq_getElem_cons hi, List.set_cons_zero, List.take_succ_eq_append_getElem hlt, hbyte,
    List.append_assoc]
  rfl

theorem getElem?_rawUpTo_back {raw row : Bytes} {i j : Nat} (hi : i ≤ raw.length) (hj : j < i) :
    (rawUpTo raw row i)[j]? = raw[j]? := by
  have hfront : (raw.take i).length = i := List.length_take_of_le hi
  rw [rawUpTo, List.getElem?_append_left (by omega), List.getElem?_take_of_lt hj]

theorem getElem?_rawUpTo {raw row : Bytes} {i : Nat} (hi : i ≤ raw.length) :
    (rawUpTo raw row i)[i]? = row[i]? := by
  have hfront : (raw.take i).length = i := List.length_take_of_le hi
  rw [rawUpTo, List.getElem?_append_right (by omega), List.getElem?_drop, hfront, Nat.sub_self,
    Nat.add_zero]

theorem unitBack_rawUpTo {raw row : Bytes} {unit i : Nat} (hunit : 0 < unit)
    (hi : i ≤ raw.length) : unitBack (rawUpTo raw row i) unit i = unitBack raw unit i := by
  unfold unitBack
  split
  · rw [List.getD_eq_getElem?_getD, getElem?_rawUpTo_back hi (by omega),
      List.getD_eq_getElem?_getD]
  · rfl

/-- The row above, zeros over the first row. -/
def aboveOf (prev : Option Bytes) (length : Nat) : Bytes := prev.getD (noRow length)

theorem unitBack_noRow (length unit i : Nat) : unitBack (noRow length) unit i = 0 := by
  unfold unitBack noRow
  split
  · rw [List.getD_eq_getElem?_getD, List.getElem?_replicate]
    split
    · rfl
    · rfl
  · rfl

theorem fromAbove_get {prev : Option Bytes} {length i : Nat}
    (habove : (aboveOf prev length).length = length) (hi : i < length) :
    fromAbove prev (get · i) = .ok ((aboveOf prev length).getD i 0) := by
  have hlt : i < (aboveOf prev length).length := Nat.lt_of_lt_of_eq hi habove.symm
  have hbyte := List.getElem?_eq_getElem hlt
  rw [List.getD_eq_getElem?_getD, hbyte]
  cases prev with
  | none =>
    have hzero : (noRow length)[i]? = some 0 := List.getElem?_replicate_of_lt hi
    exact congrArg Except.ok (Option.some.inj (hzero.symm.trans hbyte))
  | some above => exact get_eq hbyte

theorem fromAbove_oneUnitBack {prev : Option Bytes} {unit length i : Nat} (hunit : 0 < unit)
    (habove : (aboveOf prev length).length = length) (hi : i < length) :
    fromAbove prev (oneUnitBack · unit i) = .ok (unitBack (aboveOf prev length) unit i) := by
  cases prev with
  | none => exact congrArg Except.ok (unitBack_noRow length unit i).symm
  | some above =>
    have hlt : i < above.length := Nat.lt_of_lt_of_eq hi habove.symm
    exact oneUnitBack_eq hunit (Nat.le_of_lt hlt)

theorem filterByte_eq {f : Filter} {prev : Option Bytes} {unit i : Nat} {row : Bytes}
    (hunit : 0 < unit) (habove : (aboveOf prev row.length).length = row.length)
    (hi : i < row.length) :
    filterByte f prev unit row i
      = .ok ((Png.filterRow f unit (aboveOf prev row.length) row).getD i 0) := by
  have hbyte := List.getElem?_eq_getElem hi
  have hfiltered := getElem?_filterRow (f := f) hunit habove hbyte
  unfold filterByte
  rw [oneUnitBack_eq hunit (by omega), ok_bind, fromAbove_get habove hi, ok_bind,
    fromAbove_oneUnitBack hunit habove hi, ok_bind, get_eq hbyte, ok_bind, predict_eq, ok_bind]
  exact congrArg (fun b? => Except.ok (b?.getD 0)) hfiltered.symm

theorem map_getD_range {bytes : Bytes} {n : Nat} (h : bytes.length = n) :
    (List.range n).map (bytes.getD · 0) = bytes := by
  apply List.ext_getElem
  · rw [List.length_map, List.length_range, h]
  · intro i _ hi
    rw [List.getElem_map, List.getElem_range, List.getD_eq_getElem?_getD,
      List.getElem?_eq_getElem hi, Option.getD_some]

theorem filterScanline_eq {f : Filter} {prev : Option Bytes} {unit : Nat} {row : Bytes}
    (hunit : 0 < unit) (habove : (aboveOf prev row.length).length = row.length) :
    filterScanline f prev row unit row.length
      = .ok (Png.filterRow f unit (aboveOf prev row.length) row) := by
  have hlength : (Png.filterRow f unit (aboveOf prev row.length) row).length = row.length := by
    rw [length_filterRow, habove, Nat.min_self]
  have hbytes : ∀ i ∈ List.range row.length, filterByte f prev unit row i
      = .ok ((Png.filterRow f unit (aboveOf prev row.length) row).getD i 0) :=
    fun i hi => filterByte_eq hunit habove (List.mem_range.1 hi)
  rw [filterScanline, Nat.min_self, mapM_eq hbytes]
  exact congrArg Except.ok (map_getD_range hlength)

theorem unfilterByte_eq {f : Filter} {prev : Option Bytes} {unit i : Nat} {row raw : Bytes}
    (hunit : 0 < unit) (habove : (aboveOf prev row.length).length = row.length)
    (hraw : Png.unfilterRow f unit (aboveOf prev row.length) row = raw) (hi : i < row.length) :
    unfilterByte f prev unit (rawUpTo raw row i) i = .ok (rawUpTo raw row (i + 1)) := by
  have hbyte := List.getElem?_eq_getElem hi
  have hnext := getElem?_unfilterRow (f := f) hunit habove hbyte
  have hlength : raw.length = row.length := by
    rw [← hraw, length_unfilterRow, habove, Nat.min_self]
  have hstate : (rawUpTo raw row i).length = row.length := by
    rw [rawUpTo, List.length_append, List.length_take, List.length_drop]
    omega
  rw [hraw] at hnext
  unfold unfilterByte
  rw [oneUnitBack_eq hunit (by omega), ok_bind, unitBack_rawUpTo hunit (by omega),
    fromAbove_get habove hi, ok_bind, fromAbove_oneUnitBack hunit habove hi, ok_bind,
    get_eq ((getElem?_rawUpTo (by omega)).trans hbyte), ok_bind, predict_eq, ok_bind,
    set_eq (by omega), rawUpTo_succ hnext hi]

theorem unfilterRow_eq {f : Filter} {prev : Option Bytes} {unit : Nat} {row : Bytes}
    (hunit : 0 < unit) (habove : (aboveOf prev row.length).length = row.length) :
    unfilterRow f prev unit row = .ok (Png.unfilterRow f unit (aboveOf prev row.length) row) := by
  unfold unfilterRow
  split
  · rename_i hf
    rw [hf, unfilterRow_none (Nat.le_of_eq habove.symm)]
  · generalize hraw : Png.unfilterRow f unit (aboveOf prev row.length) row = raw
    have hlength : raw.length = row.length := by
      rw [← hraw, length_unfilterRow, habove, Nat.min_self]
    have hfirst : rawUpTo raw row 0 = row := rfl
    have hlast : rawUpTo raw row row.length = raw := by
      rw [rawUpTo, List.drop_length, List.append_nil, List.take_of_length_le (Nat.le_of_eq hlength)]
    have hloop := foldlM_range fun i hi => unfilterByte_eq (f := f) hunit habove hraw hi
    rwa [hfirst, hlast] at hloop

/-! ### Whole lines -/

/-- The machine has one error for all that cannot be unfiltered. -/
def endOf (ended : Except UnfilterError Unit) : Except PngError Unit :=
  ended.mapError fun _ => .malformed

theorem unfilterEach_eq {unit n : Nat} {prev : Option Bytes} {lines : List Bytes}
    (hunit : 0 < unit) (habove : (aboveOf prev n).length = n)
    (hlines : ∀ line ∈ lines, line.length = n + 1) :
    unfilterEach unit prev lines
      = .ok (endOf (resultOf (sweep (unfilterLine unit) (some (aboveOf prev n)) lines)).1,
          (sweep (unfilterLine unit) (some (aboveOf prev n)) lines).2) := by
  induction lines generalizing prev with
  | nil => rfl
  | cons line lines ih =>
    have hfirst := hlines line (List.mem_cons_self ..)
    obtain ⟨number, row, rfl⟩ := List.exists_cons_of_length_eq_add_one hfirst
    have hrow : row.length = n := Nat.succ.inj hfirst
    have hsplit : splitAt (number :: row) 1 = .ok ([number], row) :=
      splitAt_eq (Nat.le_add_left 1 row.length)
    have hnumber : get [number] 0 = .ok number := rfl
    have hmark : set [number] 0 Filter.none.number = .ok [Filter.none.number] := rfl
    rw [unfilterEach, hsplit, ok_bind, sweep_cons]
    simp only [hnumber, ok_bind, unfilterLine]
    cases Filter.ofNumber? number with
    | none =>
      rw [sweep_unfilterLine_none]
      rfl
    | some f =>
      have hraw : (Png.unfilterRow f unit (aboveOf prev n) row).length = n := by
        rw [length_unfilterRow, habove, hrow, Nat.min_self]
      have hothers := @ih (some (Png.unfilterRow f unit (aboveOf prev n) row)) hraw
        fun l hl => hlines l (List.mem_cons_of_mem _ hl)
      simp only
      rw [unfilterRow_eq hunit (by rw [hrow]; exact habove), hrow, ok_bind, hmark, ok_bind, hothers]
      rfl

/-- Unfiltering in place gives what the sweep over the lines gives, also after a failure. -/
theorem unfilterInPlace_eq {data : Bytes} {rowLength unit : Nat}
    (hspace : rowLength + 1 < addressSpace) :
    unfilterInPlace data rowLength unit
      = .ok (endOf (Png.unfilter data rowLength unit).1, (Png.unfilter data rowLength unit).2) := by
  have hfits : rowLength + 1 < 2 ^ 64 := hspace
  unfold unfilterInPlace
  rw [add_eq hfits, ok_bind, rem_eq (Nat.succ_pos _), ok_bind]
  split
  · rename_i hshape
    rw [unfilter_of_misshapen (Or.inr hspace) hshape]
    rfl
  · rename_i hshape
    have hwhole : data.length % (rowLength + 1) = 0 :=
      Decidable.byContradiction fun hne => hshape (Or.inr (Or.inr hne))
    have hnone : (aboveOf none rowLength).length = rowLength := List.length_replicate
    have hlines : ∀ line ∈ Bytes.wholeGroups (rowLength + 1) data, line.length = rowLength + 1 :=
      fun _ => Bytes.length_of_mem_wholeGroups
    rw [wholeChunks_eq (Nat.succ_pos _) hwhole, ok_bind]
    simp only
    rw [unfilterEach_eq (by omega) hnone hlines, ok_bind,
      unfilter_of_whole (by omega) (by omega) hspace hwhole]
    simp only [List.append_nil]
    rfl

theorem unfilterInPlace_overflow {data : Bytes} {rowLength unit : Nat}
    (hlong : addressSpace ≤ rowLength + 1) :
    unfilterInPlace data rowLength unit = .error .overflow := by
  have hoverflow : add 64 rowLength 1 = .error .overflow := if_neg (Nat.not_lt.2 hlong)
  rw [unfilterInPlace, hoverflow]
  rfl

/-! ### Bytes that could be unfiltered -/

/-- Lines are given back only if all of them could be unfiltered. -/
def onSuccess {α : Type} (x : Except PngError Unit × α) : Except PngError α := x.1.map fun _ => x.2

theorem unfilterLines_eq (unit : Nat) (prev : Option Bytes) (lines : List Bytes) :
    unfilterLines unit prev lines = ExceptT.mk ((unfilterEach unit prev lines).map onSuccess) := by
  induction lines generalizing prev with
  | nil => rfl
  | cons line lines ih =>
    rw [unfilterLines, unfilterEach]
    cases splitAt line 1 with
    | error trap => rfl
    | ok parts =>
      obtain ⟨front, row⟩ := parts
      simp only [lift_ok, settled_ok_bind, ok_bind]
      cases get front 0 with
      | error trap => rfl
      | ok number =>
        simp only [lift_ok, settled_ok_bind, ok_bind]
        cases Filter.ofNumber? number with
        | none => rfl
        | some f =>
          simp only [orFail_some, settled_ok_bind]
          cases unfilterRow f prev unit row with
          | error trap => rfl
          | ok raw =>
            rw [lift_ok, settled_ok_bind, ok_bind]
            cases set front 0 Filter.none.number with
            | error trap => rfl
            | ok front =>
              rw [lift_ok, settled_ok_bind, ok_bind, ih]
              cases unfilterEach unit (some raw) lines with
              | error trap => rfl
              | ok result =>
                obtain ⟨ended, others⟩ := result
                cases ended with
                | error e => rfl
                | ok => rfl

theorem unfilter_eq_inPlace (data : Bytes) (rowLength unit : Nat) :
    unfilter data rowLength unit
      = ExceptT.mk ((unfilterInPlace data rowLength unit).map onSuccess) := by
  unfold unfilter unfilterInPlace
  cases add 64 rowLength 1 with
  | error trap => rfl
  | ok line =>
    rw [lift_ok, settled_ok_bind, ok_bind]
    cases rem data.length line with
    | error trap => rfl
    | ok excess =>
      rw [lift_ok, settled_ok_bind, ok_bind]
      split
      · rfl
      · cases wholeChunks line data with
        | error trap => rfl
        | ok parts =>
          obtain ⟨lines, rest⟩ := parts
          simp only [lift_ok, settled_ok_bind, ok_bind]
          rw [unfilterLines_eq]
          cases unfilterEach unit none lines with
          | error trap => rfl
          | ok result =>
            obtain ⟨ended, others⟩ := result
            cases ended with
            | error e => rfl
            | ok => rfl

def unfilteredLines (data : Bytes) (rowLength unit : Nat) : Except PngError Bytes :=
  match Png.unfilter data rowLength unit with
  | (.error _, _) => .error .malformed
  | (.ok (), lines) => .ok lines

theorem unfilter_eq {data : Bytes} {rowLength unit : Nat} (hspace : rowLength + 1 < addressSpace) :
    unfilter data rowLength unit = settled (unfilteredLines data rowLength unit) := by
  rw [unfilter_eq_inPlace, unfilterInPlace_eq hspace, unfilteredLines]
  obtain ⟨ended, lines⟩ := Png.unfilter data rowLength unit
  cases ended with
  | error e => rfl
  | ok => rfl

/-! ### Rows without filter numbers -/

/-- The first `r` rows of data in lines, without their filter numbers. -/
def rowsInFront (rowLength : Nat) (data : Bytes) (r : Nat) : Bytes :=
  ((Bytes.groups (rowLength + 1) r data).map List.tail).flatten

theorem length_rowsInFront {rowLength r : Nat} {data : Bytes}
    (h : (rowLength + 1) * r ≤ data.length) :
    (rowsInFront rowLength data r).length = r * rowLength := by
  rw [rowsInFront, Bytes.length_flatten_map (n := rowLength), Bytes.length_groups, Nat.mul_comm]
  intro line hline
  rw [List.length_tail, Bytes.length_of_mem_groups h hline, Nat.add_sub_cancel]

theorem rowsInFront_succ (rowLength : Nat) (data : Bytes) (r : Nat) :
    rowsInFront rowLength data (r + 1)
      = rowsInFront rowLength data r
        ++ (data.drop (r * (rowLength + 1) + 1)).take rowLength := by
  have htail : ((data.drop (r * (rowLength + 1))).take (rowLength + 1)).tail
      = (data.drop (r * (rowLength + 1) + 1)).take rowLength := by
    rw [← List.drop_one, List.drop_take, List.drop_drop, Nat.add_sub_cancel]
  rw [rowsInFront, Bytes.groups_concat, List.map_append, List.flatten_append, ← rowsInFront]
  simp only [List.map_cons, List.map_nil, List.flatten_cons, List.flatten_nil, List.append_nil]
  rw [htail]

/-- The data when `r` rows are moved to the front. -/
def movedUpTo (rowLength : Nat) (data : Bytes) (r : Nat) : Bytes :=
  rowsInFront rowLength data r ++ data.drop (r * rowLength)

/-- A row is taken from bytes that no earlier row has been moved to. -/
theorem move_movedUpTo {rowLength r : Nat} {data : Bytes}
    (h : (rowLength + 1) * (r + 1) ≤ data.length) :
    (movedUpTo rowLength data r).move (r * (rowLength + 1) + 1) rowLength (r * rowLength)
      = movedUpTo rowLength data (r + 1) := by
  rw [Nat.mul_succ] at h
  have hplace : r * (rowLength + 1) = r * rowLength + r := Nat.mul_succ ..
  have hfirst : (rowLength + 1) * r = r * rowLength + r := by rw [Nat.mul_comm, hplace]
  have hnext : (r + 1) * rowLength = r * rowLength + rowLength := Nat.succ_mul ..
  have hfront : (rowsInFront rowLength data r).length = r * rowLength :=
    length_rowsInFront (by omega)
  have hrow : ((data.drop (r * (rowLength + 1) + 1)).take rowLength).length = rowLength := by
    rw [List.length_take, List.length_drop, hplace]
    omega
  have hsource : (movedUpTo rowLength data r).drop (r * (rowLength + 1) + 1)
      = data.drop (r * (rowLength + 1) + 1) := by
    rw [movedUpTo, List.drop_append, List.drop_eq_nil_of_le (by omega), List.nil_append,
      List.drop_drop]
    congr 1
    omega
  rw [Bytes.move, hsource, Bytes.overwrite, hrow, movedUpTo, movedUpTo, rowsInFront_succ, hnext,
    ← hfront, List.take_left, List.drop_append, List.drop_eq_nil_of_le (Nat.le_add_right ..),
    List.nil_append, List.drop_drop]
  congr 2
  omega

theorem length_movedUpTo {rowLength r : Nat} {data : Bytes}
    (h : (rowLength + 1) * r ≤ data.length) :
    (movedUpTo rowLength data r).length = data.length := by
  have hplace : (rowLength + 1) * r = r * rowLength + r := by rw [Nat.mul_comm, Nat.mul_succ]
  rw [movedUpTo, List.length_append, length_rowsInFront h, List.length_drop]
  omega

theorem stripRow_eq {rowLength r : Nat} {data : Bytes}
    (h : (rowLength + 1) * (r + 1) ≤ data.length) (hspace : data.length < addressSpace) :
    stripRow (rowLength + 1) rowLength (movedUpTo rowLength data r) r
      = .ok (movedUpTo rowLength data (r + 1)) := by
  unfold addressSpace at hspace
  have hbefore : (rowLength + 1) * r ≤ data.length := by
    rw [Nat.mul_succ] at h
    omega
  have hlength := length_movedUpTo hbefore
  have hmove := move_movedUpTo h
  rw [Nat.mul_comm] at h
  have hplace : r * (rowLength + 1) = r * rowLength + r := Nat.mul_succ ..
  have hnext : (r + 1) * (rowLength + 1) = r * rowLength + r + rowLength + 1 := by
    rw [Nat.succ_mul, hplace]
    omega
  have hsize : (r + 1) * (rowLength + 1) - (r * (rowLength + 1) + 1) = rowLength := by omega
  unfold stripRow
  rw [mul_eq (by omega), ok_bind, add_eq (by omega), ok_bind, add_eq (by omega), ok_bind,
    mul_eq (by omega), ok_bind, mul_eq (by omega), ok_bind,
    copyWithin_eq (by omega) (by omega) (by omega), hsize, hmove]

theorem stripFilterNumbers_eq {data : Bytes} {rowLength : Nat}
    (hspace : rowLength + 1 < addressSpace) (hdata : data.length < addressSpace) :
    stripFilterNumbers data rowLength = .ok (Png.stripFilterNumbers data rowLength) := by
  have hwhole := Nat.mul_div_le data.length (rowLength + 1)
  have hstep : ∀ r < data.length / (rowLength + 1),
      stripRow (rowLength + 1) rowLength (movedUpTo rowLength data r) r
        = .ok (movedUpTo rowLength data (r + 1)) := by
    intro r hr
    have hlines := Nat.mul_le_mul_left (rowLength + 1) (Nat.succ_le_of_lt hr)
    exact stripRow_eq (Nat.le_trans hlines hwhole) hdata
  have hloop := foldlM_range hstep
  have hfirst : movedUpTo rowLength data 0 = data := by
    rw [movedUpTo, Nat.zero_mul]
    rfl
  have hkept : data.length / (rowLength + 1) * rowLength ≤ data.length := by
    have := Nat.mul_le_mul_left (data.length / (rowLength + 1)) (Nat.le_add_right rowLength 1)
    rw [Nat.mul_comm] at hwhole
    omega
  rw [hfirst] at hloop
  unfold addressSpace at hspace hdata
  unfold stripFilterNumbers
  rw [add_eq (by omega), ok_bind, div_eq (by omega), ok_bind, hloop, ok_bind,
    mul_eq (by omega), ok_bind, movedUpTo, ← length_rowsInFront hwhole, List.take_left]
  rfl

/-! ### Unused bits -/

theorem highBits_eq {n : Nat} (h : n < 8) :
    UInt8.ofNat (255 <<< n % 2 ^ 8) = 255 <<< UInt8.ofNat n := by
  revert n
  decide

theorem clearPadding_eq {rows : Bytes} {rowLength : Nat} (bits : Nat)
    (h : rows.length % rowLength = 0) :
    clearPadding rows rowLength bits = .ok (Png.clearPadding rows rowLength bits) := by
  unfold clearPadding Png.clearPadding
  split
  · rfl
  · rename_i hbits
    rw [sub_eq (by omega), ok_bind, shiftLeft_eq (by omega), ok_bind,
      wholeChunks_eq (by omega) h, ok_bind, highBits_eq (by omega)]
    simp only [List.append_nil]
    congr 3
    funext row
    rw [clearRowPadding, if_neg (by omega)]

end Machine

end DialGraphics
