import DialGraphics.Machine.Decoder
import DialGraphics.Proofs.Deflate.OutputSize
import DialGraphics.Proofs.Machine.Filter
import DialGraphics.Proofs.Machine.Metadata
import DialGraphics.Proofs.Png.FrameData

/-!
# The rows of a frame fit the machine

A pixel has at most 32 bits and a side is a double word, so a row is always an address. Only the
buffer for all lines may be too large for one, and then it is too large for the memory as well.
-/

namespace DialGraphics.Machine

open Png

/-! ### Sizes -/

theorem bitsPerPixel_le {h : Header} (ha : h.IsAccepted) : h.bitsPerPixel ≤ 32 := by
  have hdepth := ha.depth_le
  have hchannels : h.color.channels ≤ 4 := by cases h.color <;> decide
  exact Nat.mul_le_mul hdepth hchannels

theorem bitsPerPixel_mul_lt {h : Header} (ha : h.IsAccepted) {width : Nat}
    (hwidth : width < 2 ^ 32) : h.bitsPerPixel * width < 2 ^ 38 := by
  have hbits := Nat.mul_le_mul (bitsPerPixel_le ha) (Nat.le_of_lt hwidth)
  omega

theorem bitsPerPixel_eq {h : Header} (ha : h.IsAccepted) : bitsPerPixel h = .ok h.bitsPerPixel := by
  have hbits := bitsPerPixel_le ha
  exact mul_eq (by
    unfold Header.bitsPerPixel at hbits
    omega)

theorem filterUnit_eq {h : Header} (ha : h.IsAccepted) : filterUnit h = .ok h.filterUnit := by
  rw [filterUnit, bitsPerPixel_eq ha, ok_bind, Header.filterUnit]
  congr 1
  split
  · omega
  · omega

theorem packedStride_eq {h : Header} (ha : h.IsAccepted) {width : Nat} (hwidth : width < 2 ^ 32) :
    packedStride h width = settled (.ok (h.rowStride width)) := by
  have hused := bitsPerPixel_mul_lt ha hwidth
  unfold packedStride
  rw [bitsPerPixel_eq ha, lift_ok, settled_ok_bind, product?_eq (by omega), Option.bind_some,
    sum?_eq (by omega)]
  rfl

theorem rowStride_lt {h : Header} (ha : h.IsAccepted) {width : Nat} (hwidth : width < 2 ^ 32) :
    h.rowStride width < 2 ^ 38 := by
  have hused := bitsPerPixel_mul_lt ha hwidth
  unfold Header.rowStride
  omega

/-! ### Inflating -/

/-- A size that is no address is beyond the limit for buffers, too. -/
theorem lineBuffer_eq {stride height : Nat} (hstride : stride + 1 < 2 ^ 64) :
    lineBuffer stride height
      = settled (if allocationLimit ≤ filteredSize stride height then .error .outOfMemory
          else .ok (List.replicate (filteredSize stride height) 0)) := by
  unfold lineBuffer
  rw [sum?_eq hstride, Option.bind_some, product?, ← filteredSize]
  split
  · simp only [orFail_some, settled_ok_bind, allocate]
    split
    · rfl
    · rfl
  · rename_i hlarge
    rw [if_pos (by unfold allocationLimit; omega)]
    rfl

theorem inflateFrom_eq {i : Deflate.Inflater} (hi : i.StaysInOutput) {size : Nat}
    (hsize : size < 2 ^ 64) {state : i.State} {out : Bytes} {slices : List Bytes}
    (hroom : out.length ≤ size) :
    inflateFrom i size state out slices
      = settled (orFail .malformed (i.run? size state out slices)) := by
  induction slices generalizing state out with
  | nil => rfl
  | cons slice slices ih =>
    have hwritten := hi state size out slice (!slices.isEmpty) hroom
    unfold inflateFrom Deflate.Inflater.run?
    simp only
    generalize i.feed state size out slice (!slices.isEmpty) = report at *
    have hlength : out.length + report.written.length = (out ++ report.written).length :=
      List.length_append.symm
    rw [add_eq (by omega), lift_ok, settled_ok_bind, hlength]
    rw [hlength] at hwritten
    cases report.status with
    | done =>
      simp only
      split
      · rfl
      · rfl
    | needsMoreInput => exact ih hwritten
    | hasMoreOutput =>
      simp only
      split
      · exact ih hwritten
      · rfl
    | failed => rfl

/-! ### Rows -/

theorem decodeRows_eq {i : Deflate.Inflater} (hi : i.StaysInOutput) {h : Header}
    (ha : h.IsAccepted) {width : Nat} (hwidth : width < 2 ^ 32) (height : Nat)
    (slices : List Bytes) :
    decodeRows i h (h.rowStride width) width height slices
      = settled (Png.decodeLines (i.inflate? · slices) h width height) := by
  have hstride := rowStride_lt ha hwidth
  have hused := bitsPerPixel_mul_lt ha hwidth
  unfold decodeRows Png.decodeLines
  simp only
  generalize h.rowStride width = stride at *
  rw [lineBuffer_eq (by omega)]
  split
  · rfl
  · rename_i hroom
    generalize filteredSize stride height = size at *
    unfold allocationLimit at hroom
    rw [settled_ok_bind, List.length_replicate, inflateFrom_eq hi (by omega) (Nat.zero_le _)]
    show (settled (orFail PngError.malformed (i.inflate? size slices)) >>= _) = _
    cases hlines : i.inflate? size slices with
    | none => rfl
    | some lines =>
      have hlength : lines.length = size := Deflate.Inflater.length_of_inflate? hlines
      have hspace : stride + 1 < addressSpace := by
        unfold addressSpace
        omega
      simp only [orFail_some, settled_ok_bind]
      rw [filterUnit_eq ha, lift_ok, settled_ok_bind, unfilter_eq hspace,
        unfilteredLines]
      cases hraw : Png.unfilter lines stride h.filterUnit with
      | mk result raw =>
        cases result with
        | error e => rfl
        | ok _ =>
          have hdata : raw.length < addressSpace := by
            rw [length_of_unfilter hraw, hlength]
            unfold addressSpace
            omega
          have hrows : (Png.stripFilterNumbers raw stride).length % stride = 0 := by
            rw [length_stripFilterNumbers, Nat.mul_mod_right]
          simp only [settled_ok_bind]
          rw [stripFilterNumbers_eq hspace hdata, lift_ok, settled_ok_bind, bitsPerPixel_eq ha,
            lift_ok, settled_ok_bind, mul_eq (by omega), lift_ok, settled_ok_bind,
            clearPadding_eq _ hrows]
          rfl

theorem delayMs_eq {num den : Nat} (hnum : num < 65536) :
    delayMs num den = .ok (Png.delayMs num den) := by
  have hden : 0 < if den = 0 then 100 else den := by
    split
    · decide
    · omega
  unfold delayMs Png.delayMs
  rw [mul_eq (by omega), ok_bind, div_eq hden]

/-- The region is inside the canvas, and the delay is a word. -/
structure IsAddressable (h : Header) (f : FrameControl) : Prop where
  fits : f.fits h.width h.height = true
  delayNum_lt : f.delayNum < 65536

theorem IsAddressable.width_lt {h : Header} {f : FrameControl} (hf : IsAddressable h f)
    (ha : h.IsAccepted) : f.width < 2 ^ 32 := by
  obtain ⟨-, -, hright, -⟩ := FrameControl.fits_iff.1 hf.fits
  have hcanvas := Machine.width_lt ha
  omega

theorem decodeFrame_eq {i : Deflate.Inflater} (hi : i.StaysInOutput) {h : Header}
    (ha : h.IsAccepted) {control : Option FrameControl}
    (hcontrol : ∀ f ∈ control, IsAddressable h f) (slices : List Bytes) :
    decodeFrame i h control slices
      = settled (Frame.decodeLines (i.inflate? · slices) h control) := by
  cases control with
  | none =>
    unfold decodeFrame Frame.decodeLines
    rw [packedStride_eq ha (width_lt ha), settled_ok_bind, decodeRows_eq hi ha (width_lt ha),
      settled_map]
    rfl
  | some f =>
    have hf := hcontrol f rfl
    have hwidth := hf.width_lt ha
    unfold decodeFrame Frame.decodeLines
    simp only
    rw [packedStride_eq ha hwidth, settled_ok_bind, decodeRows_eq hi ha hwidth, settled_map,
      delayMs_eq hf.delayNum_lt]
    rfl

end DialGraphics.Machine
