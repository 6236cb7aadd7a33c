import DialGraphics.Machine.OfPng
import DialGraphics.Proofs.Bitmap.PngColors
import DialGraphics.Proofs.Bytes.Groups

/-!
# Pixels fit the machine

A value lies inside a byte, so it is never shifted by a whole byte, and the places of the bytes of a
pixel are far below the largest address. Writing a row pixel by pixel gives the row as a whole.
-/

namespace DialGraphics.Machine

open Png (Header TransparentKey)

/-! ### Values and colours -/

def packedDepths : List Nat := [1, 2, 4, 8]

theorem depth_mem {h : Header} (ha : h.IsAccepted) (hcolor : h.color = .indexed ∨ h.color = .gray) :
    h.depth ∈ packedDepths := by
  have hallows := ha.allows_depth
  have hle := ha.depth_le
  rcases hcolor with hc | hc
  · rw [hc] at hallows
    simpa [Png.ColorType.allows, Png.ColorType.depths, packedDepths] using hallows
  · rw [hc] at hallows
    have hdepth : h.depth = 1 ∨ h.depth = 2 ∨ h.depth = 4 ∨ h.depth = 8 ∨ h.depth = 16 := by
      simpa [Png.ColorType.allows, Png.ColorType.depths] using hallows
    simp only [packedDepths, List.mem_cons, List.not_mem_nil, or_false]
    omega

theorem and_lowBits (n : Nat) {depth : Nat} (hdepth : depth ∈ packedDepths) :
    n &&& 255 >>> (8 - depth) = n % Nat.pow 2 depth := by
  have hmask : 255 >>> (8 - depth) = 2 ^ depth - 1 := by
    simp only [packedDepths, List.mem_cons, List.not_mem_nil, or_false] at hdepth
    rcases hdepth with rfl | rfl | rfl | rfl <;> decide
  rw [hmask]
  exact Nat.and_two_pow_sub_one_eq_mod n depth

/-- The values in front of a value in its byte, and the value itself, take at most eight bits. -/
theorem values_le {depth : Nat} (hdepth : depth ∈ packedDepths) (x : Nat) :
    depth * (x % (8 / depth) + 1) ≤ 8 := by
  simp only [packedDepths, List.mem_cons, List.not_mem_nil, or_false] at hdepth
  rcases hdepth with rfl | rfl | rfl | rfl
  all_goals
    simp only [Nat.reduceDiv]
    omega

theorem packedValue_eq {depth : Nat} (hdepth : depth ∈ packedDepths) (row : Array UInt8) (x : Nat) :
    packedValue row x depth = .ok (Png.packedValue row x depth) := by
  have hvalues := values_le hdepth x
  have hpos : 0 < depth ∧ depth ≤ 8 ∧ 0 < 8 / depth := by
    simp only [packedDepths, List.mem_cons, List.not_mem_nil, or_false] at hdepth
    rcases hdepth with rfl | rfl | rfl | rfl <;> decide
  obtain ⟨hdepthPos, hdepthLe, hperByte⟩ := hpos
  have hcolumn : x % (8 / depth) + 1 ≤ depth * (x % (8 / depth) + 1) :=
    Nat.le_mul_of_pos_left _ hdepthPos
  unfold packedValue Png.packedValue
  rw [div_eq hdepthPos, ok_bind, div_eq hperByte, ok_bind]
  simp only
  rw [rem_eq hperByte, ok_bind, add_eq (by omega), ok_bind, mul_eq (by omega), ok_bind,
    sub_eq hvalues, ok_bind, shiftRight_eq (by omega), ok_bind, sub_eq hdepthLe, ok_bind,
    shiftRight_eq (by omega), ok_bind, and_lowBits _ hdepth]

theorem spread_eq {depth value : Nat} (hdepth : depth ∈ packedDepths)
    (hvalue : value < Nat.pow 2 depth) : spread depth value = .ok (Png.spread depth value) := by
  have hrange : 1 ≤ depth ∧ depth ≤ 8 := by
    simp only [packedDepths, List.mem_cons, List.not_mem_nil, or_false] at hdepth
    omega
  exact if_pos ⟨hrange.1, hrange.2, hvalue⟩

theorem channel_eq {row : Array UInt8} {count x k : Nat} (hcount : count ≤ 4) (hx : x < 2 ^ 32)
    (hk : k < 4) : channel row count x k = .ok (row[count * x + k]?.getD 0) := by
  have hfirst : x * count ≤ x * 4 := Nat.mul_le_mul_left x hcount
  unfold channel
  rw [mul_eq (by omega), ok_bind, add_eq (by omega), ok_bind, Nat.mul_comm]

theorem sample_eq {h : Header} (ha : h.IsAccepted) (palette : List Rgba)
    (key : Option TransparentKey) (row : Array UInt8) {x : Nat} (hx : x < 2 ^ 32) :
    sample h palette key row x = .ok (Png.sample h palette key row x) := by
  unfold sample Png.sample
  cases hcolor : h.color with
  | indexed =>
    simp only
    rw [packedValue_eq (depth_mem ha (.inl hcolor)), ok_bind]
  | gray =>
    have hdepth := depth_mem ha (.inr hcolor)
    simp only
    rw [packedValue_eq hdepth, ok_bind]
    split
    · rfl
    · rw [spread_eq hdepth (Png.packedValue_lt row x h.depth), ok_bind]
  | grayAlpha =>
    simp only
    rw [channel_eq (by decide) hx (by decide), ok_bind, channel_eq (by decide) hx (by decide),
      ok_bind]
    rfl
  | rgb =>
    simp only
    rw [channel_eq (by decide) hx (by decide), ok_bind, channel_eq (by decide) hx (by decide),
      ok_bind, channel_eq (by decide) hx (by decide), ok_bind]
    rfl
  | rgba =>
    simp only
    rw [channel_eq (by decide) hx (by decide), ok_bind, channel_eq (by decide) hx (by decide),
      ok_bind, channel_eq (by decide) hx (by decide), ok_bind,
      channel_eq (by decide) hx (by decide), ok_bind]
    rfl

theorem isLight_eq (c : Rgba) : isLight c = .ok c.isLight := by
  have hr := c.r.toNat_lt
  have hg := c.g.toNat_lt
  have hb := c.b.toNat_lt
  unfold isLight Rgba.isLight
  split
  · rename_i hclear
    rw [decide_eq_true hclear, Bool.true_or]
  · rename_i hopaque
    rw [mul_eq (by omega), ok_bind, mul_eq (by omega), ok_bind, mul_eq (by omega), ok_bind,
      add_eq (by omega), ok_bind, add_eq (by omega), ok_bind, decide_eq_false hopaque,
      Bool.false_or]

/-! ### Rows -/

theorem copyRow_eq (stride : Nat) (row : Bytes) :
    copyRow (List.replicate stride 0) row = .ok (Bytes.fit stride row) := by
  have hfront : ((List.replicate stride (0 : UInt8)).take (min stride row.length)).length
      = (row.take (min stride row.length)).length := by
    simp only [List.length_take, List.length_replicate]
    omega
  have htake : row.take (min stride row.length) = row.take stride := by
    rw [← List.take_take, List.take_length]
  simp only [copyRow, List.length_replicate]
  rw [sliceTo_eq (by rw [List.length_replicate]; exact Nat.min_le_left ..),
    ok_bind, sliceTo_eq (Nat.min_le_right ..), ok_bind, copyFrom_eq hfront, ok_bind, htake,
    List.drop_replicate, Bytes.fit, List.length_take]

theorem colorRow_eq {colorAt : Array UInt8 → Nat → Checked Rgba} {color : Array UInt8 → Nat → Rgba}
    {stride : Nat} {row : Bytes}
    (h : ∀ x < stride, colorAt row.toArray x = .ok (color row.toArray x)) :
    colorRow colorAt (List.replicate stride 0) row
      = .ok ((List.range stride).map fun x => (Color.ofRgba (color row.toArray x)).argb) := by
  unfold colorRow
  rw [List.length_replicate]
  apply mapM_eq
  intro x hx
  rw [h x (List.mem_range.1 hx), ok_bind]

/-! ### Light and dark -/

/-- The first `m` pixels of a byte as bits, the first one lowest. -/
def lightBits (isLight : Nat → Bool) (i m : Nat) : UInt8 :=
  (List.range m).foldl
    (fun byte k => if isLight (8 * i + k) then byte ||| 1 <<< UInt8.ofNat k else byte) 0

theorem lightBits_succ (isLight : Nat → Bool) (i m : Nat) :
    lightBits isLight i (m + 1)
      = if isLight (8 * i + m) then lightBits isLight i m ||| 1 <<< UInt8.ofNat m
        else lightBits isLight i m := by
  unfold lightBits
  rw [List.range_succ, List.foldl_append]
  rfl

theorem foldl_lightByte (width : Nat) (isLight : Nat → Bool) (i m : Nat) :
    (List.range m).foldl
        (fun byte k =>
          if 8 * i + k < width && isLight (8 * i + k) then byte ||| 1 <<< UInt8.ofNat k else byte) 0
      = lightBits isLight i (min m (width - 8 * i)) := by
  induction m with
  | zero =>
    rw [Nat.zero_min]
    rfl
  | succ m ih =>
    rw [List.range_succ, List.foldl_append, ih]
    by_cases hinside : 8 * i + m < width
    · have hbefore : min m (width - 8 * i) = m := by omega
      have hafter : min (m + 1) (width - 8 * i) = m + 1 := by omega
      simp only [List.foldl_cons, List.foldl_nil, hinside, decide_true, Bool.true_and]
      rw [hbefore, hafter, lightBits_succ]
    · have hsame : min (m + 1) (width - 8 * i) = min m (width - 8 * i) := by omega
      simp only [List.foldl_cons, List.foldl_nil, hinside, decide_false, Bool.false_and]
      rw [hsame]
      rfl

theorem lightByte_eq (width : Nat) (isLight : Nat → Bool) (i : Nat) :
    Bitmap.lightByte width isLight i = lightBits isLight i (min 8 (width - 8 * i)) :=
  foldl_lightByte width isLight i 8

/-- One more pixel changes one bit of one byte. -/
theorem lightByte_succ (n : Nat) (isLight : Nat → Bool) (i : Nat) :
    Bitmap.lightByte (n + 1) isLight i
      = if i = n / 8 ∧ isLight n = true then
          Bitmap.lightByte n isLight i ||| 1 <<< UInt8.ofNat (n % 8)
        else Bitmap.lightByte n isLight i := by
  rw [lightByte_eq, lightByte_eq]
  by_cases hplace : i = n / 8
  · have hbefore : min 8 (n - 8 * i) = n % 8 := by omega
    have hafter : min 8 (n + 1 - 8 * i) = n % 8 + 1 := by omega
    have hpixel : 8 * i + n % 8 = n := by omega
    rw [hbefore, hafter, lightBits_succ, hpixel]
    simp only [hplace, true_and]
  · have hsame : min 8 (n + 1 - 8 * i) = min 8 (n - 8 * i) := by omega
    rw [hsame, if_neg fun h => hplace h.1]

/-- A row of the 1-bit format when `n` pixels are done. -/
def lightUpTo (stride : Nat) (isLight : Nat → Bool) (n : Nat) : Bytes :=
  (List.range stride).map (Bitmap.lightByte n isLight)

theorem lightUpTo_zero (stride : Nat) (isLight : Nat → Bool) :
    lightUpTo stride isLight 0 = List.replicate stride 0 := by
  apply List.eq_replicate_iff.2
  refine ⟨by rw [lightUpTo, List.length_map, List.length_range], ?_⟩
  intro byte hbyte
  obtain ⟨i, -, rfl⟩ := List.mem_map.1 hbyte
  rw [lightByte_eq, Nat.zero_sub, Nat.min_zero]
  rfl

theorem length_lightUpTo (stride : Nat) (isLight : Nat → Bool) (n : Nat) :
    (lightUpTo stride isLight n).length = stride := by
  rw [lightUpTo, List.length_map, List.length_range]

theorem getElem?_lightUpTo {stride i : Nat} (isLight : Nat → Bool) (n : Nat) (hi : i < stride) :
    (lightUpTo stride isLight n)[i]? = some (Bitmap.lightByte n isLight i) := by
  rw [lightUpTo, List.getElem?_map, List.getElem?_range hi, Option.map_some]

theorem lightUpTo_succ_of_light {stride n : Nat} {isLight : Nat → Bool} (hn : n < 8 * stride)
    (hlight : isLight n = true) :
    lightUpTo stride isLight (n + 1)
      = (lightUpTo stride isLight n).set (n / 8)
          (Bitmap.lightByte n isLight (n / 8) ||| 1 <<< UInt8.ofNat (n % 8)) := by
  have hplace : n / 8 < stride := by omega
  apply List.ext_getElem?
  intro i
  rcases Nat.lt_or_ge i stride with hi | hi
  · rw [List.getElem?_set, length_lightUpTo, getElem?_lightUpTo isLight _ hi,
      getElem?_lightUpTo isLight _ hi, if_pos hplace, lightByte_succ]
    by_cases hsame : n / 8 = i
    · subst hsame
      rw [if_pos rfl, if_pos ⟨rfl, hlight⟩]
    · rw [if_neg hsame, if_neg fun h => hsame h.1.symm]
  · rw [List.getElem?_eq_none (by rw [length_lightUpTo]; exact hi),
      List.getElem?_eq_none (by rw [List.length_set, length_lightUpTo]; exact hi)]

theorem lightUpTo_succ_of_dark {stride n : Nat} {isLight : Nat → Bool} (hdark : isLight n = false) :
    lightUpTo stride isLight (n + 1) = lightUpTo stride isLight n := by
  unfold lightUpTo
  apply List.map_congr_left
  intro i _
  rw [lightByte_succ, if_neg fun h => nomatch h.2.symm.trans hdark]

theorem bit_eq {n : Nat} (h : n < 8) : UInt8.ofNat (1 <<< n % 2 ^ 8) = 1 <<< UInt8.ofNat n := by
  revert n
  decide

theorem lightPixel_eq {colorAt : Nat → Checked Rgba} {color : Nat → Rgba} {stride n : Nat}
    (h : colorAt n = .ok (color n)) (hn : n < 8 * stride) :
    lightPixel colorAt (lightUpTo stride (fun x => (color x).isLight) n) n
      = .ok (lightUpTo stride (fun x => (color x).isLight) (n + 1)) := by
  have hplace : n / 8 < stride := by omega
  unfold lightPixel
  rw [h, ok_bind, isLight_eq, ok_bind]
  cases hlight : (color n).isLight with
  | true =>
    rw [if_pos rfl, get_eq (getElem?_lightUpTo _ _ hplace), ok_bind,
      shiftLeft_eq (Nat.mod_lt n (by decide)), ok_bind, bit_eq (Nat.mod_lt n (by decide)),
      set_eq (by rw [length_lightUpTo]; exact hplace), lightUpTo_succ_of_light hn hlight]
  | false => exact congrArg Except.ok (lightUpTo_succ_of_dark hlight).symm

theorem lightRow_eq {colorAt : Array UInt8 → Nat → Checked Rgba} {color : Array UInt8 → Nat → Rgba}
    {width stride : Nat} {row : Bytes} (hwidth : width ≤ 8 * stride)
    (h : ∀ x < width, colorAt row.toArray x = .ok (color row.toArray x)) :
    lightRow width colorAt (List.replicate stride 0) row
      = .ok ((List.range stride).map
          (Bitmap.lightByte width fun x => (color row.toArray x).isLight)) := by
  rw [← lightUpTo_zero]
  exact foldlM_range fun x hx => lightPixel_eq (h x hx) (Nat.lt_of_lt_of_le hx hwidth)

end DialGraphics.Machine
