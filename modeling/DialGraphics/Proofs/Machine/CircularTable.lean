import DialGraphics.Proofs.Bitmap.CircularTable
import DialGraphics.Proofs.Machine.SquareRoot

/-!
# The table of rows fits the machine

The table of rows is computed without a stop for every size. A diameter is at most `32767`, so its
square fits a signed double word; the roots are no larger, and the rows together have no more than
the diameter times the height.
-/

namespace DialGraphics.Machine

/-! ### Rows -/

theorem centred_eq {d length : Nat} (hd : d ≤ 32767) (hlength : length < 2 ^ 30) :
    centred d length
      = .ok (min d (if (d - length) % 2 = 0 then length else length + 1) : Nat) := by
  unfold centred
  rw [signed_eq (by omega), ok_bind]
  -- a length that is larger than the diameter is cut off, whether or not it is centred
  by_cases heven : ((d : Int) - length) % 2 = 0
  · have hresult : min (length : Int) d
        = (min d (if (d - length) % 2 = 0 then length else length + 1) : Nat) := by
      split <;> omega
    rw [if_pos heven, ok_bind]
    exact congrArg Except.ok hresult
  · have hresult : min (length + 1 : Int) d
        = (min d (if (d - length) % 2 = 0 then length else length + 1) : Nat) := by
      split <;> omega
    rw [if_neg heven, signed_eq (by omega), ok_bind]
    exact congrArg Except.ok hresult

/-- A disk that is no wider than a coordinate can be keeps every square below a double word. -/
theorem chord_eq {d y : Nat} (hd : d ≤ 32767) (hy : y ≤ 32767) :
    chord d y = .ok (CircularRow.chord d y : Int) := by
  have hdy : signed 32 (2 * (y : Int) + 1 - d) = .ok (2 * (y : Int) + 1 - d) :=
    signed_eq (by omega)
  unfold chord CircularRow.chord
  rw [signed_eq (by omega), ok_bind, signed_eq (by omega), ok_bind, hdy, ok_bind,
    signed_eq (by omega), ok_bind]
  generalize hdistance : (2 * (y : Int) + 1 - d) = dy
  by_cases hfar : d ≤ dy.natAbs
  · rw [if_pos (by exact_mod_cast hfar), if_pos hfar]
    rfl
  · rw [if_neg (by exact_mod_cast hfar), if_neg hfar]
    have hsquare : d * d ≤ 32767 * 32767 := Nat.mul_le_mul hd hd
    have hcut : dy.natAbs * dy.natAbs ≤ d * d :=
      Nat.mul_le_mul (by omega) (by omega)
    have hwhole : (d : Int) * d = ((d * d : Nat) : Int) := by push_cast; rfl
    have hdySquare : dy * dy = ((dy.natAbs * dy.natAbs : Nat) : Int) := by
      rw [Int.natCast_mul, Int.natAbs_mul_self']
    rw [hwhole, hdySquare]
    generalize hwhole : d * d = whole at *
    generalize hcut : dy.natAbs * dy.natAbs = cut at *
    have hrest : toUnsigned 32 ((whole : Int) - cut) = whole - cut := by
      rw [toUnsigned_eq (by omega) (by omega)]
      omega
    have hroot := squareRoot_le (whole - cut)
    rw [signed_eq (by omega), ok_bind, signed_eq (by omega), ok_bind, signed_eq (by omega), ok_bind,
      hrest, squareRoot_eq (by omega), ok_bind]
    rw [toSigned_eq (by decide) (by omega)]
    exact centred_eq hd (by omega)

theorem atRow_eq {d y offset : Nat} (hd : d ≤ 32767) :
    atRow d (CircularRow.chord d y) offset = .ok (CircularRow.atRow d y offset) := by
  have hchord := CircularRow.chord_le d y
  unfold atRow CircularRow.atRow
  generalize CircularRow.chord d y = length at *
  have hmargin : ((d : Int) - length) / 2 = ((d - length) / 2 : Nat) := by omega
  rw [signed_eq (by omega), ok_bind]
  simp only [hmargin]
  rw [signed_eq (by omega), ok_bind, signed_eq (by omega), ok_bind,
    toSigned_eq (by decide) (by omega), toSigned_eq (by decide) (by omega)]

/-! ### The table -/

theorem tableFrom_eq {d offset : Nat} {ys : List Nat} (hd : d ≤ 32767)
    (hys : ∀ y ∈ ys, y ≤ 32767) (hfits : offset + d * ys.length < 2 ^ 32) :
    tableFrom d offset ys
      = .ok (sweep (fun offset y =>
          (offset + CircularRow.chord d y, CircularRow.atRow d y offset)) offset ys).2 := by
  induction ys generalizing offset with
  | nil => rfl
  | cons y ys ih =>
    have hchord := CircularRow.chord_le d y
    have hy : y ≤ 32767 := hys y (List.mem_cons_self ..)
    rw [List.length_cons, Nat.mul_succ] at hfits
    have hlength : toUnsigned 32 (CircularRow.chord d y : Int) = CircularRow.chord d y := by
      rw [toUnsigned_eq (by omega) (by omega), Int.toNat_natCast]
    rw [tableFrom, chord_eq hd hy, ok_bind, atRow_eq hd, ok_bind, hlength, add_eq (by omega),
      ok_bind, ih (fun y hy => hys y (List.mem_cons_of_mem _ hy)) (by omega), ok_bind, sweep_cons]

theorem table_eq (size : Size) : table size = settled (CircularRow.table size) := by
  have hw := size.w.toInt_lt
  have hh := size.h.toInt_lt
  unfold table CircularRow.table
  split
  · rfl
  · rename_i hempty
    obtain ⟨hwide, -⟩ := Size.isEmpty_eq_false_iff.1 (Bool.eq_false_iff.2 hempty)
    have hwidth : size.w.toInt = (size.w.toInt.toNat : Int) := by omega
    generalize hd : size.w.toInt.toNat = d at *
    have harea : d * size.h.toInt.toNat ≤ 32767 * 32767 :=
      Nat.mul_le_mul (by omega) (by omega)
    have hfits : 0 + d * (List.range size.h.toInt.toNat).length < 2 ^ 32 := by
      rw [List.length_range]
      omega
    have hrows := tableFrom_eq (by omega) (fun y hy => by
      have := List.mem_range.1 hy
      omega) hfits
    rw [hwidth, hrows]
    rfl

theorem span_atRow_eq {d : Nat} (hd : d ≤ 32767) (y offset : Nat) :
    span (CircularRow.atRow d y offset) = .ok (CircularRow.atRow d y offset).span := by
  have hchord := CircularRow.chord_le d y
  have hdistance : (CircularRow.atRow d y offset).maxX - (CircularRow.atRow d y offset).minX
      = (CircularRow.chord d y : Int) - 1 := by
    simp only [CircularRow.atRow]
    omega
  rw [CircularRow.span_atRow hd]
  unfold span
  split
  · have hzero : CircularRow.chord d y = 0 := by omega
    rw [hzero]
  · have hlast : toUnsigned 64 ((CircularRow.chord d y : Int) - 1) + 1
        = CircularRow.chord d y := by
      rw [toUnsigned_eq (by omega) (by omega)]
      omega
    rw [hdistance, signed_eq (by omega), ok_bind, add_eq (by omega), hlast]

theorem storedSize_eq {size : Size} {rows : List CircularRow}
    (h : CircularRow.table size = .ok rows) :
    storedSize rows = .ok (CircularRow.storedSize rows) := by
  have hw := size.w.toInt_lt
  have hh := size.h.toInt_lt
  have hstored := CircularRow.storedSize_le h
  have harea : size.w.toInt.toNat * size.h.toInt.toNat ≤ 32767 * 32767 :=
    Nat.mul_le_mul (by omega) (by omega)
  unfold storedSize
  unfold CircularRow.storedSize at hstored ⊢
  cases hlast : rows.getLast? with
  | none => rfl
  | some last =>
    obtain ⟨y, offset, rfl⟩ := CircularRow.eq_atRow_of_table h (List.mem_of_getLast? hlast)
    simp only [hlast] at hstored
    simp only
    rw [span_atRow_eq (by omega), ok_bind, add_eq (by omega)]

end DialGraphics.Machine
