import DialGraphics.Proofs.Deflate.SliceLoop
import DialGraphics.Proofs.Deflate.Stored
import DialGraphics.Proofs.Png.FilteredRows
import DialGraphics.Proofs.Png.HeaderCheck
import DialGraphics.Png.Slices

/-!
# Frame data

From the rows of a region to a compressed stream and back: the stream of the filtered rows decodes
to the rows as they were, and whatever a stream decodes to has the size of the region.
-/

namespace DialGraphics.Png

/-- A line of an image that can be allocated is no longer than addresses reach. -/
theorem lineLength_lt {stride height : Nat} (hheight : 0 < height)
    (hsize : filteredSize stride height < allocationLimit) : stride + 1 < addressSpace := by
  have := Nat.le_mul_of_pos_right (stride + 1) hheight
  unfold filteredSize allocationLimit at hsize
  unfold addressSpace
  omega

/-- Packed rows for a region of `height` rows of `width` pixels, each with the filter it is written
with. Unused bits at the end of a row are zero. -/
structure FilteredImage (h : Header) (width height : Nat) where
  rows : List (Filter × Bytes)
  length_rows : rows.length = height
  length_row : ∀ x ∈ rows, x.2.length = h.rowStride width
  padded : ∀ x ∈ rows, IsZeroPadded (h.bitsPerPixel * width) x.2

namespace FilteredImage

variable {h : Header} {width height : Nat}

def data (image : FilteredImage h width height) : Bytes := (image.rows.map Prod.snd).flatten

def lines (image : FilteredImage h width height) : Bytes :=
  filterLines h.filterUnit (h.rowStride width) image.rows

theorem length_lines (image : FilteredImage h width height) :
    image.lines.length = filteredSize (h.rowStride width) height := by
  rw [lines, length_filterLines _ image.length_row, image.length_rows, filteredSize]

theorem length_raw (image : FilteredImage h width height) :
    ∀ row ∈ image.rows.map Prod.snd, row.length = h.rowStride width := by
  intro row hrow
  obtain ⟨x, hx, rfl⟩ := List.mem_map.1 hrow
  exact image.length_row x hx

theorem padded_raw (image : FilteredImage h width height) :
    ∀ row ∈ image.rows.map Prod.snd, IsZeroPadded (h.bitsPerPixel * width) row := by
  intro row hrow
  obtain ⟨x, hx, rfl⟩ := List.mem_map.1 hrow
  exact image.padded x hx

theorem decodeRows_storedStream (image : FilteredImage h width height)
    (stream : Deflate.StoredStream image.lines) (hstride : 0 < h.rowStride width)
    (hheight : 0 < height) (hsize : filteredSize (h.rowStride width) height < allocationLimit) :
    decodeRows h width height stream.toBytes = .ok image.data := by
  have hinflate : Deflate.Zlib.inflate? (filteredSize (h.rowStride width) height) stream.toBytes
      = some image.lines := by
    rw [← image.length_lines]
    exact Deflate.inflate?_storedStream stream
  have hspace : h.rowStride width + 1 < addressSpace := lineLength_lt hheight hsize
  have hunfilter : unfilter image.lines (h.rowStride width) h.filterUnit
      = (.ok (), (image.rows.map fun x => plainLine x.2).flatten) :=
    unfilter_filterLines h.filterUnit_pos hstride hspace image.length_row
  have hplain : (image.rows.map fun x => plainLine x.2)
      = (image.rows.map Prod.snd).map plainLine := List.map_map.symm
  simp only [decodeRows]
  rw [if_neg (by omega), hinflate]
  simp only
  rw [hunfilter]
  simp only
  rw [hplain, stripFilterNumbers_plainLines image.length_raw,
    clearPadding_eq_self image.length_raw image.padded_raw, data]

end FilteredImage

/-! ### Sizes -/

section Sizes

variable {i : Deflate.Inflater} {slices : List Bytes} {h : Header} {width height : Nat}
  {data : Bytes}

/-- An inflater gives as many lines as were asked for, so there are as many rows. -/
theorem decodeLines_eq_ok (hd : decodeLines (i.inflate? · slices) h width height = .ok data) :
    ∃ rows : Bytes, rows.length = h.rowStride width * height
      ∧ data = clearPadding rows (h.rowStride width) (h.bitsPerPixel * width) := by
  simp only [decodeLines] at hd
  split at hd
  · cases hd
  · split at hd
    · cases hd
    · rename_i lines hlines
      split at hd
      · cases hd
      · rename_i plain hplain
        cases hd
        have hsize : plain.length = filteredSize (h.rowStride width) height := by
          rw [length_of_unfilter hplain, Deflate.Inflater.length_of_inflate? hlines]
        refine ⟨_, ?_, rfl⟩
        rw [length_stripFilterNumbers, hsize, filteredSize,
          Nat.mul_div_cancel_left _ (Nat.succ_pos _)]

theorem length_of_decodeLines
    (hd : decodeLines (i.inflate? · slices) h width height = .ok data) :
    data.length = h.rowStride width * height := by
  obtain ⟨rows, hrows, rfl⟩ := decodeLines_eq_ok hd
  rw [length_clearPadding, hrows]
  rw [hrows, Nat.mul_mod_right]

theorem isZeroPadded_of_decodeLines
    (hd : decodeLines (i.inflate? · slices) h width height = .ok data)
    (hstride : 0 < h.rowStride width) {row : Nat} (hrow : row < height) :
    IsZeroPadded (h.bitsPerPixel * width)
      ((data.drop (row * h.rowStride width)).take (h.rowStride width)) := by
  obtain ⟨rows, hrows, rfl⟩ := decodeLines_eq_ok hd
  exact isZeroPadded_clearPadding _ hstride hrows hrow

end Sizes

/-! ### Streams that are no image -/

section Defects

variable {h : Header} {width height : Nat}

theorem decodeRows_cases (hsize : filteredSize (h.rowStride width) height < allocationLimit)
    (stream : Bytes) :
    (∃ rows, decodeRows h width height stream = .ok rows)
      ∨ decodeRows h width height stream = .error .malformed := by
  simp only [decodeRows]
  rw [if_neg (Nat.not_le.2 hsize)]
  cases Deflate.Zlib.inflate? (filteredSize (h.rowStride width) height) stream with
  | none => exact .inr rfl
  | some lines =>
    simp only
    split
    · exact .inr rfl
    · exact .inl ⟨_, rfl⟩

/-- There are rows in a stream exactly if it gives as many bytes as the rows need, with the number
of a filter in front of each row. -/
theorem decodeRows_isOk_iff (hstride : 0 < h.rowStride width) (hheight : 0 < height)
    (hsize : filteredSize (h.rowStride width) height < allocationLimit) (stream : Bytes) :
    (∃ rows, decodeRows h width height stream = .ok rows)
      ↔ ∃ lines, Deflate.Zlib.inflate? (filteredSize (h.rowStride width) height) stream
          = some lines ∧ AreLines (h.rowStride width) height lines := by
  simp only [decodeRows]
  rw [if_neg (Nat.not_le.2 hsize)]
  cases hinflate : Deflate.Zlib.inflate? (filteredSize (h.rowStride width) height) stream with
  | none => exact ⟨fun ⟨_, h⟩ => (nomatch h), fun ⟨_, h, _⟩ => (nomatch h)⟩
  | some lines =>
    have hlines := unfilter_eq_ok_iff h.filterUnit_pos hstride (lineLength_lt hheight hsize)
      (Deflate.Zlib.length_of_inflate? hinflate)
    simp only [Option.some.injEq, exists_eq_left', ← hlines]
    split
    · rename_i hunfilter
      rw [hunfilter]
      exact ⟨fun ⟨_, h⟩ => (nomatch h), fun h => (nomatch h)⟩
    · rename_i hunfilter
      rw [hunfilter]
      exact ⟨fun _ => rfl, fun _ => ⟨_, rfl⟩⟩

end Defects

/-! ### Frames -/

/-- Frame control for the whole canvas makes no difference to the rows. -/
theorem decode_of_covers {h : Header} {control : Option FrameControl}
    (hcontrol : ∀ f ∈ control, f.covers h.width h.height = true) (stream : Bytes) :
    ∃ place : Bytes → Frame,
      Frame.decode h control stream = (decodeRows h h.width h.height stream).map place := by
  cases control with
  | none => exact ⟨_, rfl⟩
  | some f =>
    have hcovers := hcontrol f rfl
    simp only [FrameControl.covers, Bool.and_eq_true, beq_iff_eq] at hcovers
    obtain ⟨⟨-, hwidth⟩, hheight⟩ := hcovers
    rw [← hwidth, ← hheight]
    exact ⟨_, rfl⟩

/-- Where on the canvas a frame is, and how large it is. -/
def Frame.region (frame : Frame) : Nat × Nat × Nat × Nat :=
  (frame.x, frame.y, frame.width, frame.height)

def Header.canvas (h : Header) : Nat × Nat × Nat × Nat := (0, 0, h.width, h.height)

/-- The region that frame control says, the whole canvas if there is none. -/
def Header.region (h : Header) : Option FrameControl → Nat × Nat × Nat × Nat
  | none => h.canvas
  | some f => (f.x, f.y, f.width, f.height)

theorem Header.region_eq_canvas {h : Header} {control : Option FrameControl}
    (hcontrol : ∀ f ∈ control, f.covers h.width h.height = true) : h.region control = h.canvas := by
  cases control with
  | none => rfl
  | some f =>
    have hcovers := hcontrol f rfl
    simp only [FrameControl.covers, Bool.and_eq_true, beq_iff_eq] at hcovers
    obtain ⟨⟨⟨hx, hy⟩, hwidth⟩, hheight⟩ := hcovers
    rw [region, hx, hy, hwidth, hheight, canvas]

theorem Frame.decodeLines_eq_ok {lines? : Nat → Option Bytes} {h : Header}
    {control : Option FrameControl} {frame : Frame}
    (hd : Frame.decodeLines lines? h control = .ok frame) :
    Png.decodeLines lines? h frame.width frame.height = .ok frame.data
      ∧ frame.rowStride = h.rowStride frame.width ∧ frame.region = h.region control := by
  cases control with
  | none =>
    obtain ⟨data, hdata, rfl⟩ := map_eq_ok_iff.1 hd
    exact ⟨hdata, rfl, rfl⟩
  | some f =>
    obtain ⟨data, hdata, rfl⟩ := map_eq_ok_iff.1 hd
    exact ⟨hdata, rfl, rfl⟩

end DialGraphics.Png
