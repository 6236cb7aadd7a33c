import DialGraphics.Machine.Palettize
import DialGraphics.Proofs.Bitmap.Palettized
import DialGraphics.Proofs.Machine.PngFile
import DialGraphics.Proofs.Machine.Rect

/-!
# Palette forms fit the machine

The far corner of a union fits a double word, and the rows of both bitmaps are read in pairs without
leaving either of them: rows of blank storage that find none in the source stay blank, and a source
that ends inside a row fills as much of its pair.
-/

namespace DialGraphics.Machine

/-! ### The far corner -/

theorem coordinate_eq {v : Int} (h : -32768 ≤ v) :
    coordinate v = if Bitmap.maxCoordinate < v then .error .malformed else .ok (Int16.ofInt v) := by
  have hmax : (Bitmap.maxCoordinate : Int) = 32767 := rfl
  unfold coordinate
  split
  · rw [if_neg (by omega)]
  · rw [if_pos (by omega)]

/-! ### Rows -/

/-- Groups of bytes as long as there are any, the last one as long as it can be. -/
theorem exists_chunks {n : Nat} (hn : 0 < n) (bytes : Bytes) :
    ∃ count, chunks n bytes = .ok (Bytes.groups n count bytes)
      ∧ ∀ y, y < count ↔ y * n < bytes.length := by
  have hdivision := Nat.div_add_mod bytes.length n
  have hremainder := Nat.mod_lt bytes.length hn
  have hparts : chunks n bytes
      = .ok (if (bytes.drop (n * (bytes.length / n))).isEmpty then Bytes.wholeGroups n bytes
        else Bytes.wholeGroups n bytes ++ [bytes.drop (n * (bytes.length / n))]) := by
    rw [chunks, wholeChunks, if_neg (Nat.ne_of_gt hn)]
    rfl
  by_cases hwhole : bytes.length % n = 0
  · refine ⟨bytes.length / n, chunks_eq hn hwhole, fun y => ?_⟩
    rw [Nat.lt_div_iff_mul_lt' (Nat.dvd_of_mod_eq_zero hwhole), Nat.mul_comm]
  · have hrest : (bytes.drop (n * (bytes.length / n))).length = bytes.length % n := by
      rw [List.length_drop]
      omega
    have hsome : (bytes.drop (n * (bytes.length / n))).isEmpty = false := by
      rw [List.isEmpty_eq_false_iff, ← List.length_pos_iff, hrest]
      omega
    refine ⟨bytes.length / n + 1, ?_, fun y => ?_⟩
    · rw [hparts, hsome, if_neg (by decide), Bytes.groups_concat, Nat.mul_comm _ n,
        List.take_of_length_le (by omega), Bytes.wholeGroups]
    · rw [Nat.lt_succ_iff, Nat.le_div_iff_mul_le hn]
      -- a multiple of the size is not the length, which leaves a remainder
      refine ⟨fun hle => Nat.lt_of_le_of_ne hle fun heq => ?_, Nat.le_of_lt⟩
      rw [← heq, Nat.mul_mod_left] at hwhole
      exact hwhole rfl

theorem zipWith_replicate_left (f : UInt8 → UInt8) (n : Nat) (row : Bytes) :
    List.zipWith (fun _ byte => f byte) (List.replicate n (0 : UInt8)) row
      = (row.take n).map f := by
  induction n generalizing row with
  | zero => rfl
  | succ n ih =>
    cases row with
    | nil => rfl
    | cons byte row =>
      rw [List.replicate_succ, List.zipWith_cons_cons, ih, List.take_succ_cons, List.map_cons]

theorem reverseRow_replicate (stride : Nat) (row : Bytes) :
    reverseRow (List.replicate stride 0) row
      = Bytes.fit stride ((row.take stride).map Bitmap.reverseBits) := by
  have hall : ((row.take stride).map Bitmap.reverseBits).length ≤ stride := by
    rw [List.length_map, List.length_take]
    exact Nat.min_le_left ..
  rw [reverseRow, zipWith_replicate_left, List.drop_replicate, Bytes.fit,
    List.take_of_length_le hall, List.length_map, List.length_take]
  congr 2
  omega

theorem reverseRows_eq (source : Bytes) (sourceStride stride count : Nat) :
    reverseRows (List.replicate (stride * count) 0) stride source sourceStride
      = .ok (Bitmap.reverseRows source sourceStride stride count) := by
  unfold reverseRows Bitmap.reverseRows
  split
  · rfl
  · rename_i hpos
    have hstride : 0 < stride := by omega
    have hwhole : (List.replicate (stride * count) (0 : UInt8)).length % stride = 0 := by
      rw [List.length_replicate, Nat.mul_mod_right]
    obtain ⟨paired, hsources, hreach⟩ := exists_chunks (show 0 < sourceStride by omega) source
    rw [wholeChunks_eq hstride hwhole, ok_bind, wholeGroups_replicate hstride]
    simp only
    rw [hsources, ok_bind, List.append_nil]
    congr 2
    apply List.ext_getElem?
    intro y
    rw [List.getElem?_append, List.length_zipWith, List.length_replicate, Bytes.length_groups,
      List.getElem?_zipWith, List.getElem?_drop, List.getElem?_map]
    by_cases hy : y < count
    · rw [Bytes.getElem?_groups hy, List.getElem?_replicate_of_lt hy]
      by_cases hpaired : y < paired
      · rw [if_pos (by omega), Bytes.getElem?_groups hpaired]
        exact congrArg some (reverseRow_replicate ..)
      · -- no row of the source is left for this one
        have hle : source.length ≤ y * sourceStride :=
          Nat.le_of_not_lt fun hlt => hpaired ((hreach y).2 hlt)
        have hzeros : Bytes.fit stride ([].map Bitmap.reverseBits) = List.replicate stride 0 := by
          simp [Bytes.fit]
        rw [if_neg (by omega), List.getElem?_replicate_of_lt (by omega),
          List.drop_eq_nil_of_le hle, List.take_nil, Option.map_some, List.take_nil, hzeros]
    · have hend : (Bytes.groups sourceStride count source)[y]? = none := by
        rw [List.getElem?_eq_none_iff, Bytes.length_groups]
        omega
      rw [if_neg (by omega), hend,
        List.getElem?_eq_none_iff.2 (by rw [List.length_replicate]; omega)]
      rfl

/-! ### The palette form -/

theorem toPalettized_eq (b : Bitmap) : toPalettized b = settled b.toPalettized := by
  have hwidth := coordinate_eq (show -32768 ≤ (b.bounds.union {}).columns.stop from
    le_stop_union b.bounds.columns _)
  have hheight := coordinate_eq (show -32768 ≤ (b.bounds.union {}).rows.stop from
    le_stop_union b.bounds.rows _)
  unfold toPalettized Bitmap.toPalettized
  split
  · rw [union_eq, lift_ok, settled_ok_bind, stop_eq, lift_ok, settled_ok_bind, hwidth]
    show (settled (if Bitmap.maxCoordinate < (b.bounds.union {}).maxX then _ else _) >>= _) = _
    by_cases hright : Bitmap.maxCoordinate < (b.bounds.union {}).maxX
    · rw [if_pos hright, if_pos (Or.inl hright)]
      rfl
    · rw [if_neg hright, settled_ok_bind, stop_eq, lift_ok, settled_ok_bind, hheight]
      show (settled (if Bitmap.maxCoordinate < (b.bounds.union {}).maxY then _ else _) >>= _) = _
      by_cases hbottom : Bitmap.maxCoordinate < (b.bounds.union {}).maxY
      · rw [if_pos hbottom, if_pos (Or.inr hbottom)]
        rfl
      · rw [if_neg hbottom, if_neg (not_or.2 ⟨hright, hbottom⟩), settled_ok_bind, allocateBlank_eq,
          settled_map]
        show (settled (Bitmap.allocateBlank ⟨Int16.ofInt (b.bounds.union {}).maxX,
          Int16.ofInt (b.bounds.union {}).maxY⟩ .palette1) >>= _) = _
        cases hzeros : Bitmap.allocateBlank ⟨Int16.ofInt (b.bounds.union {}).maxX,
          Int16.ofInt (b.bounds.union {}).maxY⟩ .palette1 with
        | error e => rfl
        | ok zeros =>
          have hblank := zeros_of_allocateBlank (show PixelFormat.palette1 ≠ .circular by decide)
            hzeros
          rw [settled_ok_bind, settled_ok_bind, hblank, reverseRows_eq]
          rfl
  · rfl

/-- Every 1-bit bitmap has a palette form with the same bounds, black and white, in rows of the
least length, and each pixel up to the far corner of the bounds has the same bit and colour. -/
theorem toPalettized_keeps {b : Bitmap} (hb : b.Reachable) (hmono : b.format = .mono) :
    ∃ form, b.toPalettized = .ok form ∧ toPalettized b = settled (.ok form)
      ∧ form.bounds = b.bounds ∧ form.format = .palette1 ∧ form.colors? = some [.black, .white]
      ∧ form.rowSize.toNat = PixelFormat.palette1.rowStride b.bounds.maxX.toNat
      ∧ form.data.length = form.rowSize.toNat * b.bounds.maxY.toNat
      ∧ ∀ x y : Nat, (x : Int) < b.bounds.maxX → (y : Int) < b.bounds.maxY →
        ∃ source byte, b.data[y * b.rowSize.toNat + x / 8]? = some source
          ∧ form.data[y * form.rowSize.toNat + x / 8]? = some byte
          ∧ byte.toNat.testBit (7 - x % 8) = source.toNat.testBit (x % 8)
          ∧ b.colorAt? x y = some (Bitmap.bitColor (source.toNat.testBit (x % 8)))
          ∧ form.colorAt? x y = some (Bitmap.bitColor (source.toNat.testBit (x % 8))) := by
  have hproper := hb.wellFormed.proper
  have hform := Bitmap.toPalettized_eq hproper hmono
  have hstride := Bitmap.toNat_rowSize_paletteForm hproper
  refine ⟨b.paletteForm, hform, ?_, rfl, rfl, rfl, hstride, ?_, fun x y hx hy => ?_⟩
  · rw [toPalettized_eq, hform]
  · rw [hstride]
    exact Bitmap.length_data_paletteForm b
  · exact Bitmap.paletteForm_keeps hb hmono hx hy

/-- Three columns and two rows of a bitmap of 40 times 4 pixels, one of which is white. -/
def monoPart : Bitmap :=
  ⟨.owned ((List.replicate 32 0).set 9 4), .absent, 8, .mono, 1, ⟨⟨9, 1⟩, ⟨3, 2⟩⟩, none⟩

theorem toPalettized_monoPart :
    (monoPart.Reachable ∧ monoPart.format = .mono)
      ∧ ∃ form, monoPart.toPalettized = .ok form ∧ form.rowSize.toNat = 2
        ∧ form.data.length = 6 ∧ form.colorAt? 10 1 = some .white := by
  have hblank : Bitmap.blank ⟨40, 4⟩ .mono .standard
      = .ok ⟨.owned (List.replicate 32 0), .absent, 8, .mono, 1, .ofSize ⟨40, 4⟩, none⟩ := rfl
  have hreach : monoPart.Reachable := Bitmap.Reachable.runAll (.made (.blank hblank))
    [.write 9 4, .setBounds ⟨⟨9, 1⟩, ⟨3, 2⟩⟩] []
  have hmono : monoPart.format = .mono := rfl
  obtain ⟨form, hform, -, -, -, -, hrowSize, hlength, hpixels⟩ := toPalettized_keeps hreach hmono
  obtain ⟨source, -, hsource, -, -, -, hcolor⟩ := hpixels 10 1 (by decide) (by decide)
  obtain rfl : 4 = source := Option.some.inj hsource
  have hstride : form.rowSize.toNat = 2 := hrowSize
  rw [hstride] at hlength
  exact ⟨⟨hreach, hmono⟩, form, hform, hstride, hlength, hcolor⟩

end DialGraphics.Machine
