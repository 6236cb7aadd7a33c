import DialGraphics.Proofs.Bitmap.Disk
import DialGraphics.Proofs.Bitmap.Histories

/-!
# Bounds inside the first ones

A bitmap does not remember how large it was made: new bounds are measured against what its rows and
bytes add up to. That is enough for all bounds inside the first ones, unless the rows have no bytes,
or only the ends of a disk are stored, which are narrower than the disk.
-/

namespace DialGraphics

namespace CircularRow

/-! ### The widest row -/

theorem le_rowsWidth_iff {rows : List CircularRow} (hne : rows ≠ []) {v : Int} :
    v ≤ Bitmap.rowsWidth rows ↔ ∃ r ∈ rows, v ≤ r.maxX + 1 := by
  unfold Bitmap.rowsWidth
  split
  · rename_i hnone
    exact absurd (List.map_eq_nil_iff.1 (List.max?_eq_none_iff.1 hnone)) hne
  · rename_i w hw
    obtain ⟨hmem, hmax⟩ := List.max?_eq_some_iff.1 hw
    constructor
    · intro hv
      obtain ⟨r, hr, rfl⟩ := List.mem_map.1 hmem
      exact ⟨r, hr, hv⟩
    · rintro ⟨r, hr, hv⟩
      exact Int.le_trans hv (hmax _ (List.mem_map_of_mem hr))

theorem squares_le {d m n : Nat} (hd : 0 < d) (hm : m ≤ 1) (hn : n = d - 1) :
    m * m + n * n ≤ d * d := by
  obtain ⟨k, rfl⟩ : ∃ k, d = k + 1 := ⟨d - 1, by omega⟩
  have hsmall : m * m ≤ 1 * 1 := Nat.mul_le_mul hm hm
  rw [hn, Nat.add_sub_cancel, Nat.succ_mul, Nat.mul_succ]
  omega

/-- The middle of the first row is on the disk. -/
theorem onDisk_first {d : Nat} (hd : 0 < d) : OnDisk d (d / 2) 0 := by
  rw [onDisk_iff]
  apply squares_le hd
  · unfold distance
    omega
  · unfold distance
    omega

/-- The last column of the middle row is on the disk. -/
theorem onDisk_last {d : Nat} (hd : 0 < d) : OnDisk d (d - 1) ((d - 1) / 2) := by
  rw [onDisk_iff, Nat.add_comm]
  apply squares_le hd
  · unfold distance
    omega
  · unfold distance
    omega

variable {size : Size} {rows : List CircularRow}

/-- The rows of a table are as wide as the pixels of the disk in them reach. -/
theorem le_rowsWidth_table_iff (h : table size = .ok rows) {v : Int} :
    v ≤ Bitmap.rowsWidth rows
      ↔ ∃ x y : Nat, x < size.w.toInt.toNat ∧ y < size.h.toInt.toNat
        ∧ OnDisk size.w.toInt.toNat x y ∧ v ≤ x + 1 := by
  have hwide := size.w.toInt_lt
  have hlength := length_table h
  obtain ⟨hw, hh⟩ := Size.isEmpty_eq_false_iff.1 (isEmpty_of_table h)
  have hne : rows ≠ [] := by
    rintro rfl
    exact absurd hlength (Int.ne_of_lt hh)
  have hdisk : ∀ y r, rows[y]? = some r → IsDiskRow size.w.toInt.toNat y r := by
    intro y r hr
    obtain ⟨offset, rfl⟩ := exists_atRow_of_getElem? h hr
    exact isDiskRow_atRow (by omega) y offset
  rw [le_rowsWidth_iff hne]
  constructor
  · rintro ⟨r, hr, hv⟩
    obtain ⟨y, hy⟩ := List.getElem?_of_mem hr
    have hrow := hdisk y r hy
    have hbelow : y < rows.length := (List.getElem?_eq_some_iff.1 hy).1
    have hmin := hrow.minX_nonneg
    have hmax := hrow.maxX_lt
    by_cases hpixels : r.minX ≤ r.maxX
    · refine ⟨r.maxX.toNat, y, by omega, by omega, ?_, by omega⟩
      rw [← hrow.covers_iff _ (by omega)]
      unfold Covers
      omega
    · -- a row without pixels is cut off at the middle, where the first row has some
      obtain ⟨offset, rfl⟩ := exists_atRow_of_getElem? h hy
      refine ⟨size.w.toInt.toNat / 2, 0, by omega, by omega, onDisk_first (by omega), ?_⟩
      simp only [atRow] at hpixels hv
      omega
  · rintro ⟨x, y, hx, hy, hon, hv⟩
    have hr := List.getElem?_eq_getElem (show y < rows.length by omega)
    have hcovers := ((hdisk y _ hr).covers_iff x hx).2 hon
    have hright := hcovers.2
    exact ⟨_, List.mem_of_getElem? hr, by omega⟩

theorem toInt_rowsWidth (h : table size = .ok rows) :
    (Int16.ofInt (Bitmap.rowsWidth rows)).toInt = Bitmap.rowsWidth rows := by
  have hwide := size.w.toInt_lt
  have hlow : 0 ≤ Bitmap.rowsWidth rows := by
    obtain ⟨hw, hh⟩ := Size.isEmpty_eq_false_iff.1 (isEmpty_of_table h)
    rw [le_rowsWidth_table_iff h]
    exact ⟨size.w.toInt.toNat / 2, 0, by omega, by omega, onDisk_first (by omega), by omega⟩
  have hhigh : Bitmap.rowsWidth rows ≤ 32767 := by
    obtain ⟨x, y, hx, -, -, hreach⟩ := (le_rowsWidth_table_iff h).1 (Int.le_refl _)
    omega
  exact Interval.toInt_ofInt_of_mem hlow hhigh

end CircularRow

namespace Bitmap

open CircularRow (OnDisk)

variable {size : Size} {b : Bitmap} {r : Rect}

/-! ### What the storage adds up to -/

/-- The storage of a bitmap, as it was made, reaches as far as a rectangle inside the bitmap. In a
disk there is a stored pixel in the last column of the rectangle, or to the right of it; other rows
have bytes, unless the rectangle ends above them all. -/
def ReachesTo (b : Bitmap) (r : Rect) : Prop :=
  match b.format with
  | .circular =>
    ∃ x y : Nat, x < b.bounds.size.w.toInt.toNat ∧ y < b.bounds.size.h.toInt.toNat
      ∧ OnDisk b.bounds.size.w.toInt.toNat x y ∧ r.maxX ≤ x + 1
  | _ => b.rowSize = 0 → r.maxY = 0

theorem reachesTo_fixed_iff (hformat : b.format ≠ .circular) :
    b.ReachesTo r ↔ (b.rowSize = 0 → r.maxY = 0) := by
  unfold ReachesTo
  split
  · rename_i hcircular
    exact absurd hcircular hformat
  · exact Iff.rfl

theorem isProper_of_inside (hr : r.size.isNegative = false)
    (hinside : (Rect.ofSize size).contains r = true) :
    r.IsProper ∧ r.maxX ≤ size.w.toInt ∧ r.maxY ≤ size.h.toInt := by
  obtain ⟨hw, hh⟩ := Size.isNegative_eq_false_iff.1 hr
  have hmaxX := Rect.maxX_ofSize size
  have hmaxY := Rect.maxY_ofSize size
  have hwide := size.w.toInt_lt
  have htall := size.h.toInt_lt
  rw [Rect.contains, Bool.and_eq_true, Interval.contains_iff hw,
    Interval.contains_iff hh] at hinside
  obtain ⟨⟨hleft, hright⟩, htop, hbottom⟩ := hinside
  have hright : r.maxX ≤ (Rect.ofSize size).maxX := hright
  have hbottom : r.maxY ≤ (Rect.ofSize size).maxY := hbottom
  refine ⟨⟨⟨hleft, hw, ?_⟩, ⟨htop, hh, ?_⟩⟩, by omega, by omega⟩
  · show r.maxX ≤ 32767
    omega
  · show r.maxY ≤ 32767
    omega

theorem toInt_ofNat_min (n : Nat) : (Int16.ofNat (min n maxCoordinate)).toInt = min n 32767 := by
  have hle : min n maxCoordinate ≤ 32767 := Nat.min_le_right ..
  rw [Int16.toInt_ofNat_of_lt (by omega)]
  rfl

theorem IsComplete.storageSize_fixed (hb : b.IsComplete size) (hformat : b.format ≠ .circular) :
    (b.rowSize = 0 → size.w.toInt = 0 ∧ b.storageSize = ⟨0, 0⟩)
      ∧ (b.rowSize ≠ 0 → size.w.toInt ≤ b.storageSize.w.toInt
        ∧ size.h.toInt ≤ b.storageSize.h.toInt) := by
  obtain ⟨hw, hh⟩ := Size.isNegative_eq_false_iff.1 hb.nonneg
  have hwide := size.w.toInt_lt
  have htall := size.h.toInt_lt
  have hrows : b.rows = none :=
    (Except.ok.inj ((rowsFor_fixed hformat size).symm.trans hb.rows)).symm
  have hstride := ((RawLayout.hasRows_fixed_iff hformat).1 hb.hasRows).1
  have hbits := PixelFormat.bitsPerPixel_mul_le hformat size.w.toInt.toNat
  have hstored := hb.stored
  rw [RawLayout.storedLength_fixed hformat] at hstored
  have hpos : 0 < b.format.bitsPerPixel := by cases b.format <;> decide
  constructor
  · intro hzero
    rw [hzero] at hstride
    have hwidth : b.format.bitsPerPixel * size.w.toInt.toNat = 0 := by
      rw [UInt16.toNat_zero] at hstride
      omega
    have hnone := (Nat.mul_eq_zero.1 hwidth).resolve_left (Nat.ne_of_gt hpos)
    refine ⟨by omega, ?_⟩
    simp only [storageSize, hrows, hzero, UInt16.toNat_zero, Nat.zero_mul, Nat.zero_div,
      Nat.div_zero, Nat.zero_min]
    rfl
  · intro hne
    have hrowSize : 0 < b.rowSize.toNat := by
      rcases Nat.eq_zero_or_pos b.rowSize.toNat with hzero | hpos
      · exact absurd (UInt16.toNat_inj.1 hzero) hne
      · exact hpos
    simp only [storageSize, hrows]
    rw [toInt_ofNat_min, toInt_ofNat_min]
    have hcolumns : size.w.toInt.toNat ≤ b.rowSize.toNat * 8 / b.format.bitsPerPixel := by
      rw [Nat.le_div_iff_mul_le hpos, Nat.mul_comm]
      omega
    have hcount : size.h.toInt.toNat ≤ b.pixels.toBytes.length / b.rowSize.toNat := by
      rw [Nat.le_div_iff_mul_le hrowSize, Nat.mul_comm]
      exact hstored
    omega

/-- Inside the first bounds it only matters how far the storage reaches. -/
theorem IsComplete.isWithin_iff (hb : b.IsComplete size) (hr : r.size.isNegative = false)
    (hinside : b.bounds.contains r = true) : r.IsWithin b.storageSize ↔ b.ReachesTo r := by
  rw [hb.bounds] at hinside
  obtain ⟨hproper, hmaxX, hmaxY⟩ := isProper_of_inside hr hinside
  have hbottom : 0 ≤ r.maxY := hproper.rows.stop_nonneg
  by_cases hformat : b.format = .circular
  · have hrows := hb.rows
    rw [hformat] at hrows
    obtain ⟨rows, htable, hsome⟩ := map_eq_ok_iff.1 hrows
    have hlength := CircularRow.length_table htable
    have htall := size.h.toInt_lt
    have hw : b.storageSize.w.toInt = rowsWidth rows := by
      simp only [storageSize, ← hsome]
      exact CircularRow.toInt_rowsWidth htable
    have hh : b.storageSize.h.toInt = rows.length := by
      simp only [storageSize, ← hsome]
      exact Int16.toInt_ofNat_of_lt (by omega)
    have hreach : b.ReachesTo r ↔ r.maxX ≤ rowsWidth rows := by
      rw [CircularRow.le_rowsWidth_table_iff htable]
      simp only [ReachesTo, hformat, hb.bounds]
      exact Iff.rfl
    rw [hreach, ← hw]
    exact ⟨fun h => h.maxX_le, fun h => ⟨hproper, h, by omega⟩⟩
  · obtain ⟨hempty, hstored⟩ := hb.storageSize_fixed hformat
    rw [reachesTo_fixed_iff hformat]
    by_cases hzero : b.rowSize = 0
    · obtain ⟨hwidth, hstorage⟩ := hempty hzero
      rw [hstorage]
      constructor
      · intro h _
        have hlast : r.maxY ≤ 0 := h.maxY_le
        omega
      · intro h
        refine ⟨hproper, ?_, ?_⟩
        · show r.maxX ≤ 0
          omega
        · show r.maxY ≤ 0
          rw [h hzero]
    · obtain ⟨hright, hlast⟩ := hstored hzero
      exact ⟨fun _ h => absurd h hzero,
        fun _ => ⟨hproper, Int.le_trans hmaxX hright, Int.le_trans hmaxY hlast⟩⟩

/-- Rows of pixels always reach, and so does a disk of which the upper half is stored. -/
theorem IsComplete.reachesTo_of_wide (hb : b.IsComplete size) (hwidth : 0 < size.w.toInt)
    (hdisk : b.format = .circular → size.w.toInt ≤ 2 * size.h.toInt)
    (hr : r.size.isNegative = false) (hinside : b.bounds.contains r = true) : b.ReachesTo r := by
  rw [hb.bounds] at hinside
  obtain ⟨-, hmaxX, -⟩ := isProper_of_inside hr hinside
  by_cases hformat : b.format = .circular
  · have hheight := hdisk hformat
    have hlast := @CircularRow.onDisk_last size.w.toInt.toNat (by omega)
    simp only [ReachesTo, hformat, hb.bounds]
    refine ⟨size.w.toInt.toNat - 1, (size.w.toInt.toNat - 1) / 2, ?_, ?_, hlast, by omega⟩
    · show size.w.toInt.toNat - 1 < size.w.toInt.toNat
      omega
    · show (size.w.toInt.toNat - 1) / 2 < size.h.toInt.toNat
      omega
  · rw [reachesTo_fixed_iff hformat]
    intro hzero
    obtain ⟨hnone, -⟩ := (hb.storageSize_fixed hformat).1 hzero
    omega

end Bitmap

/-! ### Whole histories -/

namespace BitmapAction

theorem displaced_of_run (a : BitmapAction) {h : HeldBitmap} (hkept : (a.run h).2.displaced = []) :
    h.displaced = [] ∧ (a.run h).2.bitmap.SharesLayout h.bitmap
      ∧ ((a.run h).2.bitmap.bounds = h.bitmap.bounds
        ∨ (a.run h).2.bitmap.bounds.IsWithin h.bitmap.storageSize) := by
  rcases a.run_cases h with ⟨p, -, hrun⟩ | ⟨_, _, _, _, _, -, -, hrun⟩ | ⟨hsame, hchange⟩
  · rw [hrun] at hkept ⊢
    exact ⟨hkept, Bitmap.sharesLayout_setPalette _ p, .inl rfl⟩
  · rw [hrun] at hkept
    exact absurd hkept (List.concat_ne_nil _ _)
  · rw [hsame] at hkept
    exact ⟨hkept, hchange.sharesLayout, hchange.bounds_cases⟩

/-- As long as no storage is put aside all bounds are measured in the same way, and other bounds
than the first ones have been accepted once. -/
theorem displaced_of_runAll (actions : List BitmapAction) {h : HeldBitmap}
    (hkept : (runAll actions h).2.displaced = []) :
    h.displaced = [] ∧ (runAll actions h).2.bitmap.SharesLayout h.bitmap
      ∧ ((runAll actions h).2.bitmap.bounds = h.bitmap.bounds
        ∨ (runAll actions h).2.bitmap.bounds.IsWithin h.bitmap.storageSize) := by
  induction actions generalizing h with
  | nil => exact ⟨hkept, .refl _, .inl rfl⟩
  | cons a actions ih =>
    obtain ⟨hnext, hlater, hbounds⟩ := ih hkept
    obtain ⟨hfirst, hlayout, hmoved⟩ := a.displaced_of_run hnext
    refine ⟨hfirst, hlater.trans hlayout, ?_⟩
    rw [hlayout.storageSize] at hbounds
    rcases hbounds with hsame | hwithin
    · rcases hmoved with hmoved | hwithin
      · exact .inl (hsame.trans hmoved)
      · right
        show (runAll actions (a.run h).2).2.bitmap.bounds.IsWithin h.bitmap.storageSize
        rw [hsame]
        exact hwithin
    · exact .inr hwithin

theorem runAll_append (earlier later : List BitmapAction) (h : HeldBitmap) :
    (runAll (earlier ++ later) h).2 = (runAll later (runAll earlier h).2).2 := by
  induction earlier generalizing h with
  | nil => rfl
  | cons a earlier ih => exact ih (a.run h).2

end BitmapAction

namespace HeldBitmap

open Bitmap (IsMade)
open BitmapAction (runAll)

theorem setBounds_of_isWithin {h : HeldBitmap} {r : Rect}
    (hwithin : r.IsWithin h.bitmap.storageSize) :
    h.setBounds r = (.ok (), { h with bitmap := { h.bitmap with bounds := r } }) := by
  rw [setBounds, Bitmap.setBounds_eq_ok_iff.2 hwithin]

theorem setBounds_of_not_isWithin {h : HeldBitmap} {r : Rect}
    (houtside : ¬ r.IsWithin h.bitmap.storageSize) : h.setBounds r = (.error .badParameter, h) := by
  rw [setBounds, Bitmap.setBounds_eq_error houtside]

/-- However a bitmap is made, and whatever is done with it as long as its storage is not replaced:
bounds inside the first ones are taken exactly if the storage reaches as far as they do, which it
always does when there are pixels in its rows and, of a disk, at least half of the rows. Bounds that
were set later on can always be set again. -/
theorem setBounds_inside {b : Bitmap} (hb : IsMade b) (actions : List BitmapAction)
    {h : HeldBitmap} (hrun : (runAll actions ⟨b, []⟩).2 = h) (hkept : h.displaced = []) :
    (∀ r : Rect, r.size.isNegative = false → b.bounds.contains r = true →
        (b.ReachesTo r →
            h.setBounds r = (.ok (), { h with bitmap := { h.bitmap with bounds := r } }))
          ∧ (¬ b.ReachesTo r → h.setBounds r = (.error .badParameter, h))
          ∧ (0 < b.bounds.size.w.toInt
            → (b.format = .circular → b.bounds.size.w.toInt ≤ 2 * b.bounds.size.h.toInt)
            → b.ReachesTo r))
      ∧ ∀ earlier later, actions = earlier ++ later →
        let r := (runAll earlier ⟨b, []⟩).2.bitmap.bounds
        r ≠ b.bounds →
          h.setBounds r = (.ok (), { h with bitmap := { h.bitmap with bounds := r } }) := by
  obtain ⟨size, hcomplete⟩ := hb.exists_isComplete
  have hsize : b.bounds.size = size := by rw [hcomplete.bounds]; rfl
  rw [← hrun] at hkept
  have hstorage : h.bitmap.storageSize = b.storageSize := by
    rw [← hrun]
    exact (BitmapAction.displaced_of_runAll actions hkept).2.1.storageSize
  refine ⟨fun r hr hinside => ⟨fun hreach => ?_, fun hshort => ?_, fun hwidth hdisk => ?_⟩, ?_⟩
  · apply setBounds_of_isWithin
    rw [hstorage]
    exact (hcomplete.isWithin_iff hr hinside).2 hreach
  · apply setBounds_of_not_isWithin
    rw [hstorage]
    exact fun hwithin => hshort ((hcomplete.isWithin_iff hr hinside).1 hwithin)
  · rw [hsize] at hwidth hdisk
    exact hcomplete.reachesTo_of_wide hwidth hdisk hr hinside
  · rintro earlier later rfl r hother
    rw [BitmapAction.runAll_append] at hkept
    obtain ⟨hearly, -, -⟩ := BitmapAction.displaced_of_runAll later hkept
    obtain ⟨-, -, hbounds⟩ := BitmapAction.displaced_of_runAll earlier hearly
    apply setBounds_of_isWithin
    rw [hstorage]
    exact hbounds.resolve_left hother

/-! ### Half a disk, and less -/

/-- The upper `rows` rows of a disk of four columns. -/
def diskFile (rows : UInt8) : Bytes := [0, 0, 10, 16, 0, 0, 0, 0, 4, 0, rows, 0, 1, 2, 3, 4, 5, 6]

def diskTop (rows : Int16) (table : List CircularRow) : Bitmap :=
  ⟨.borrowed [1, 2, 3, 4, 5, 6], .absent, 0, .circular, 1, .ofSize ⟨4, rows⟩, some table⟩

theorem ofRaw_diskFile {rows : UInt8} {height : Int16} {table : List CircularRow} {n : Nat}
    (hparse : RawLayout.parse (diskFile rows) .standard
      = .ok ⟨.circular, 1, 0, ⟨4, height⟩, n, 0⟩)
    (hlong : n ≤ 6) (htable : CircularRow.table ⟨4, height⟩ = .ok table) :
    Bitmap.ofRaw (diskFile rows) .standard = .ok (diskTop height table) := by
  have henough : ¬ (diskFile rows).length < 12 + n + 0 := by
    show ¬ 18 < 12 + n + 0
    omega
  rw [Bitmap.ofRaw_eq, hparse]
  simp only [Except.bind, RawLayout.totalLength, RawLayout.headerSize, if_neg henough,
    Bitmap.ofLayout_eq, Bitmap.rowsFor, htable]
  rfl

/-- Half a disk, of which a corner was shown in the meantime, is shown as a whole again. -/
theorem setBounds_inside_halfDisk :
    let b := diskTop 2 [⟨0, 1, 2⟩, ⟨2, 0, 3⟩]
    let actions := [.setBounds ⟨⟨3, 1⟩, ⟨1, 1⟩⟩, .write 5 7]
    let h := (runAll actions ⟨b, []⟩).2
    IsMade b ∧ h.displaced = [] ∧ h.bitmap.bounds = ⟨⟨3, 1⟩, ⟨1, 1⟩⟩
      ∧ h.setBounds b.bounds = (.ok (), { h with bitmap := { h.bitmap with bounds := b.bounds } })
      ∧ h.setBounds h.bitmap.bounds = (.ok (), h) := by
  intro b actions h
  have hmade : IsMade b := .raw
    (@ofRaw_diskFile 2 2 [⟨0, 1, 2⟩, ⟨2, 0, 3⟩] 6 (by decide +kernel) (by decide)
      (by decide +kernel))
  obtain ⟨hinside, hagain⟩ := setBounds_inside hmade actions (h := h) rfl rfl
  obtain ⟨hreach, -, hwide⟩ := hinside b.bounds (by decide) (by decide)
  refine ⟨hmade, rfl, rfl, hreach (hwide (by decide) (by decide)), ?_⟩
  exact hagain actions [] rfl (by decide)

/-- Bitmaps that refuse the bounds they were made with: one of four rows without columns, and the
first row of a disk. -/
theorem setBounds_refuses_first :
    (∃ b, Bitmap.blank ⟨0, 4⟩ .color .standard = .ok b
        ∧ setBounds ⟨b, []⟩ b.bounds = (.error .badParameter, ⟨b, []⟩))
      ∧ ∃ b, Bitmap.ofRaw (diskFile 1) .standard = .ok b
        ∧ setBounds ⟨b, []⟩ b.bounds = (.error .badParameter, ⟨b, []⟩) :=
  ⟨⟨_, rfl, rfl⟩, diskTop 1 [⟨0, 1, 2⟩],
    @ofRaw_diskFile 1 1 [⟨0, 1, 2⟩] 2 (by decide +kernel) (by decide) (by decide +kernel), rfl⟩

end HeldBitmap

end DialGraphics
