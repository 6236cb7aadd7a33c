import DialGraphics.Proofs.Bitmap.Disk
import DialGraphics.Proofs.Machine.CircularTable

/-!
# The machine stores the disk

Computed in machine words, the table of a round display has the pixels on the disk and no others,
each in a place of its own, and no number is cut off on the way.
-/

namespace DialGraphics.Machine

open CircularRow (IsDiskRow OnDisk distance placeOf)

/-- The numbers that change their type on the way to row `y` keep their values. -/
structure KeepsNumbers (d y : Nat) : Prop where
  /-- What is left of the square of the diameter is positive, so it can lose its sign. -/
  rest : distance d y < d → (toUnsigned 32 (d * d - (2 * y + 1 - d) * (2 * y + 1 - d)) : Int)
    = d * d - (2 * y + 1 - d) * (2 * y + 1 - d)
  root : toSigned 32 (DialGraphics.squareRoot (d * d - distance d y * distance d y))
    = DialGraphics.squareRoot (d * d - distance d y * distance d y)
  length : toUnsigned 32 (CircularRow.chord d y) = CircularRow.chord d y
  minX : ∀ offset, toSigned 16 (CircularRow.atRow d y offset).minX
    = (CircularRow.atRow d y offset).minX
  maxX : ∀ offset, toSigned 16 (CircularRow.atRow d y offset).maxX
    = (CircularRow.atRow d y offset).maxX

theorem keepsNumbers {d : Nat} (hd : d ≤ 32767) (y : Nat) : KeepsNumbers d y := by
  have hchord := CircularRow.chord_le d y
  have hsquare : d * d ≤ 32767 * 32767 := Nat.mul_le_mul hd hd
  refine ⟨?_, ?_, ?_, ?_, ?_⟩
  · intro hnear
    have hcut : distance d y * distance d y ≤ d * d :=
      Nat.mul_self_le_mul_self (Nat.le_of_lt hnear)
    have hdistance : (2 * (y : Int) + 1 - d) * (2 * y + 1 - d)
        = (distance d y * distance d y : Nat) := by
      rw [Int.natCast_mul, distance, Int.natAbs_mul_self']
    have hwhole : (d : Int) * d = (d * d : Nat) := (Int.natCast_mul d d).symm
    rw [hdistance, hwhole, toUnsigned_eq (by omega) (by omega)]
    omega
  · have hroot := CircularRow.sqrt_sub_le d (distance d y * distance d y)
    rw [squareRoot_eq_sqrt]
    exact toSigned_eq (by decide) (by omega)
  · rw [toUnsigned_eq (by omega) (by omega), Int.toNat_natCast]
  · intro offset
    apply toSigned_eq (by decide)
    simp only [CircularRow.atRow]
    omega
  · intro offset
    apply toSigned_eq (by decide)
    simp only [CircularRow.atRow]
    omega

/-- The table of a display of `h` rows whose disk is `d` wide has `h` rows, and each of them stores
exactly the pixels of the disk, one row right behind the other. So the places of all pixels of the
disk are the numbers below the stored size, and no two pixels have the same place. -/
theorem table_stores_disk {size : Size} {d h : Nat} (hw : size.w.toInt = d) (hh : size.h.toInt = h)
    (hwide : 0 < d) (htall : 0 < h) :
    ∃ rows, table size = settled (.ok rows) ∧ CircularRow.table size = .ok rows
      ∧ rows.length = h
      ∧ (∀ y r, rows[y]? = some r
        → IsDiskRow d y r ∧ r.offset = ((rows.take y).map CircularRow.span).sum
          ∧ span r = .ok r.span)
      ∧ storedSize rows = .ok (CircularRow.storedSize rows)
      ∧ Set.BijOn (placeOf rows) {p | p.1 < d ∧ p.2 < h ∧ OnDisk d p.1 p.2}
          (Set.Iio (CircularRow.storedSize rows))
      ∧ ∀ y < h, KeepsNumbers d y := by
  have hd : d ≤ 32767 := by
    have := size.w.toInt_lt
    omega
  have hdiameter : size.w.toInt.toNat = d := by rw [hw, Int.toNat_natCast]
  have hnonempty : size.isEmpty = false := Size.isEmpty_eq_false_iff.2 ⟨by omega, by omega⟩
  obtain ⟨rows, hrows⟩ : ∃ rows, CircularRow.table size = .ok rows := by
    unfold CircularRow.table
    rw [hnonempty]
    exact ⟨_, rfl⟩
  have hstacked := CircularRow.isStacked_table hrows
  have hlength : rows.length = h := by
    have := CircularRow.length_table hrows
    omega
  have hne : rows ≠ [] := List.length_pos_iff.1 (by omega)
  have hrow : ∀ y r, rows[y]? = some r → ∃ offset, r = CircularRow.atRow d y offset := by
    intro y r hr
    rw [← hdiameter]
    exact CircularRow.exists_atRow_of_getElem? hrows hr
  have hdisk : ∀ y r, rows[y]? = some r → IsDiskRow d y r := by
    intro y r hr
    obtain ⟨offset, rfl⟩ := hrow y r hr
    exact CircularRow.isDiskRow_atRow hd y offset
  refine ⟨rows, by rw [table_eq, hrows], hrows, hlength, ?_, storedSize_eq hrows, ?_, ?_⟩
  · intro y r hr
    refine ⟨hdisk y r hr, (hstacked.offset_eq hr).trans (Nat.zero_add _), ?_⟩
    obtain ⟨offset, rfl⟩ := hrow y r hr
    exact span_atRow_eq hd y offset
  · have hbijection := CircularRow.bijOn_placeOf hd hstacked hne hdisk
    rwa [CircularRow.storedPixels_eq hdisk, hlength] at hbijection
  · exact fun y _ => keepsNumbers hd y

theorem table_stores_disk_fiveWide :
    ((5 : Int16).toInt = (5 : Nat) ∧ (6 : Int16).toInt = (6 : Nat) ∧ 0 < 5 ∧ 0 < 6)
      ∧ ∃ rows, table ⟨5, 6⟩ = settled (.ok rows)
        ∧ rows = [⟨0, 1, 3⟩, ⟨3, 0, 4⟩, ⟨8, 0, 4⟩, ⟨13, 0, 4⟩, ⟨18, 1, 3⟩, ⟨21, 2, 1⟩]
        ∧ Set.BijOn (placeOf rows) {p | p.1 < 5 ∧ p.2 < 6 ∧ OnDisk 5 p.1 p.2} (Set.Iio 21) := by
  have hw : (5 : Int16).toInt = (5 : Nat) := by decide
  have hh : (6 : Int16).toInt = (6 : Nat) := by decide
  have htable : CircularRow.table ⟨5, 6⟩
      = .ok [⟨0, 1, 3⟩, ⟨3, 0, 4⟩, ⟨8, 0, 4⟩, ⟨13, 0, 4⟩, ⟨18, 1, 3⟩, ⟨21, 2, 1⟩] := by
    decide +kernel
  obtain ⟨rows, hmachine, hrows, -, -, -, hplaces, -⟩ :=
    @table_stores_disk ⟨5, 6⟩ 5 6 hw hh (by decide) (by decide)
  cases hrows.symm.trans htable
  exact ⟨⟨hw, hh, by decide, by decide⟩, _, hmachine, rfl, hplaces⟩

end DialGraphics.Machine
