import DialGraphics.Png.Header

/-!
# Accepted headers

What a header has to be for a decoder to accept it. Every accepted header can be written, and is
read back; its rows are never empty.
-/

namespace DialGraphics.Png

namespace Header

/-- The sides are within their limits, and the depth is one of the colour type's and at most 8. -/
structure IsAccepted (h : Header) : Prop where
  width_pos : 0 < h.width
  height_pos : 0 < h.height
  width_le : h.width ≤ maxSide
  height_le : h.height ≤ maxSide
  allows_depth : h.color.allows h.depth = true
  depth_le : h.depth ≤ 8

theorem ofNumber?_number (t : ColorType) : ColorType.ofNumber? t.number = some t := by
  cases t <;> rfl

/-! ### Reading what was written -/

theorem check_of_isAccepted {h : Header} (ha : h.IsAccepted) :
    check h.width h.height h.depth h.color.number 0 0 0 = .ok h := by
  have hsides : ¬ (h.width = 0 ∨ h.height = 0 ∨ maxSide < h.width ∨ maxSide < h.height) := by
    have := ha.width_pos
    have := ha.height_pos
    have := ha.width_le
    have := ha.height_le
    omega
  have hdepth : h.depth ≠ 16 := by
    have := ha.depth_le
    omega
  simp only [check]
  rw [if_neg hsides, ofNumber?_number]
  simp only [ha.allows_depth, hdepth]
  rfl

theorem fields?_toData {h : Header} (ha : h.IsAccepted) :
    fields? h.toData = some (h.width, h.height, [h.depth, h.color.number, 0, 0, 0]) := by
  have hwidth := ha.width_le
  have hheight := ha.height_le
  have hdepth := ha.depth_le
  have hnumber : h.color.number ≤ 6 := by cases h.color <;> decide
  unfold maxSide at hwidth hheight
  have hbytes : [UInt8.ofNat h.depth, UInt8.ofNat h.color.number, 0, 0, 0].map UInt8.toNat
      = [h.depth, h.color.number, 0, 0, 0] := by
    simp only [List.map_cons, List.map_nil, UInt8.toNat_ofNat', UInt8.toNat_zero]
    rw [Nat.mod_eq_of_lt (by omega), Nat.mod_eq_of_lt (by omega)]
  simp only [toData, List.append_assoc, fields?]
  rw [Bytes.bigWord32?_ofBigWord32_append _ (by omega)]
  simp only [Option.bind_eq_bind, Option.bind_some]
  rw [Bytes.bigWord32?_ofBigWord32_append _ (by omega)]
  simp only [Option.bind_some]
  rw [hbytes]
  rfl

theorem ofChunk_toData {h : Header} (ha : h.IsAccepted) (crc : Nat) :
    ofChunk ⟨Tag.ihdr, h.toData, crc⟩ = .ok h := by
  simp only [ofChunk, fields?_toData ha]
  exact check_of_isAccepted ha

@[simp] theorem length_toData (h : Header) : h.toData.length = 13 := rfl

/-! ### What was accepted -/

theorem isAccepted_of_check {h : Header}
    {width height depth color compression filter interlace : Nat}
    (hc : check width height depth color compression filter interlace = .ok h) : h.IsAccepted := by
  simp only [check] at hc
  split at hc
  · cases hc
  · rename_i hsides
    split at hc
    · cases hc
    · rename_i type htype
      split at hc
      · cases hc
      · rename_i hallows
        split at hc
        · cases hc
        · split at hc
          · cases hc
          · split at hc
            · cases hc
            · rename_i hdepth
              cases hc
              have hallows : type.allows depth = true := by simpa using hallows
              refine ⟨?_, ?_, ?_, ?_, hallows, ?_⟩
              · show 0 < width
                omega
              · show 0 < height
                omega
              · show width ≤ maxSide
                omega
              · show height ≤ maxSide
                omega
              · show depth ≤ 8
                cases type <;> simp [ColorType.allows, ColorType.depths] at hallows <;> omega

theorem isAccepted_of_ofChunk {h : Header} {c : Chunk} (hc : ofChunk c = .ok h) :
    h.IsAccepted := by
  simp only [ofChunk] at hc
  split at hc
  · cases hc
  · split at hc
    · exact isAccepted_of_check hc
    · cases hc

/-! ### Geometry -/

theorem filterUnit_pos (h : Header) : 0 < h.filterUnit := Nat.le_max_left 1 _

theorem IsAccepted.depth_pos {h : Header} (ha : h.IsAccepted) : 0 < h.depth := by
  have hallows := ha.allows_depth
  cases hcolor : h.color <;> simp [hcolor, ColorType.allows, ColorType.depths] at hallows <;> omega

theorem IsAccepted.bitsPerPixel_pos {h : Header} (ha : h.IsAccepted) : 0 < h.bitsPerPixel := by
  have hchannels : 0 < h.color.channels := by cases h.color <;> decide
  exact Nat.mul_pos ha.depth_pos hchannels

theorem IsAccepted.rowStride_pos {h : Header} (ha : h.IsAccepted) {width : Nat}
    (hwidth : 0 < width) : 0 < h.rowStride width := by
  have hbits := Nat.mul_pos ha.bitsPerPixel_pos hwidth
  unfold rowStride
  omega

end Header

end DialGraphics.Png
