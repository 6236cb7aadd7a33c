import DialGraphics.Proofs.Machine.Filter
import DialGraphics.Proofs.Png.UnfilterProgress

/-!
# Filters in place

What the machine filters is what the sweeps filter. With that, filtering and unfiltering are inverse
to each other in both directions, and unfiltering leaves nothing half done. Both hold as long as the
length of a line, one byte more than that of its row, fits a machine word. For the longest row it
does not, and then the machine stops, even without any data.
-/

namespace DialGraphics

/-- The greatest length that a machine word can hold. -/
def longestRow : Nat := addressSpace - 1

namespace Machine

open Png

/-- Rows filtered one after the other, each under the raw row before it. -/
def filterRows (unit : Nat) (prev : Option Bytes) : List (Filter × Bytes) → Checked Bytes
  | [] => .ok []
  | (f, row) :: rows => do
    let filtered ← filterScanline f prev row unit row.length
    let others ← filterRows unit (some row) rows
    .ok (f.number :: filtered ++ others)

theorem filterRows_eq {unit n : Nat} {prev : Option Bytes} {rows : List (Filter × Bytes)}
    (hunit : 0 < unit) (habove : (aboveOf prev n).length = n) (h : ∀ x ∈ rows, x.2.length = n) :
    filterRows unit prev rows = .ok (sweep (filterLine unit) (aboveOf prev n) rows).2.flatten := by
  induction rows generalizing prev with
  | nil => rfl
  | cons x rows ih =>
    have hfirst : x.2.length = n := h x (List.mem_cons_self ..)
    have hline : filterScanline x.1 prev x.2 unit x.2.length
        = .ok (filterRow x.1 unit (aboveOf prev n) x.2) := by
      rw [filterScanline_eq hunit (by rw [hfirst]; exact habove), hfirst]
    have hothers := @ih (some x.2) hfirst fun y hy => h y (List.mem_cons_of_mem _ hy)
    rw [filterRows, hline, ok_bind, hothers, ok_bind, sweep_cons]
    rfl

theorem filterRows_none {unit n : Nat} {rows : List (Filter × Bytes)} (hunit : 0 < unit)
    (h : ∀ x ∈ rows, x.2.length = n) : filterRows unit none rows = .ok (filterLines unit n rows) :=
  filterRows_eq hunit List.length_replicate h

/-! ### Both ways -/

/-- Rows come back from their lines whenever a line fits the address space, and lines that can be
unfiltered come back from their rows. The machine gives the same lines and the same rows. -/
theorem refiltering {rowLength unit : Nat} (hrow : 0 < rowLength) (hunit : 0 < unit) :
    (∀ rows : List (Filter × Bytes), (∀ x ∈ rows, x.2.length = rowLength) →
      ∃ data, filterRows? unit none rows = some data ∧ filterRows unit none rows = .ok data
        ∧ ((∃ lines, Png.unfilter data rowLength unit = (.ok (), lines)
              ∧ Png.stripFilterNumbers lines rowLength = (rows.map Prod.snd).flatten)
            ↔ rowLength + 1 < addressSpace)
        ∧ (rowLength + 1 < addressSpace → data.length < addressSpace →
            ∃ lines, unfilterInPlace data rowLength unit = .ok (.ok (), lines)
              ∧ Machine.stripFilterNumbers lines rowLength = .ok (rows.map Prod.snd).flatten))
    ∧ ∀ data lines, Png.unfilter data rowLength unit = (.ok (), lines) →
      ∃ filters : List Filter,
        (Bytes.wholeGroups (rowLength + 1) data).map
            (fun line => line.head?.bind Filter.ofNumber?) = filters.map some
        ∧ filterRows? unit none (filters.zip
            (Bytes.wholeGroups rowLength (Png.stripFilterNumbers lines rowLength))) = some data
        ∧ filterRows unit none (filters.zip
            (Bytes.wholeGroups rowLength (Png.stripFilterNumbers lines rowLength))) = .ok data := by
  constructor
  · intro rows hrows
    have hraw : ∀ row ∈ rows.map Prod.snd, row.length = rowLength := List.forall_mem_map.2 hrows
    have hback : rowLength + 1 < addressSpace →
        Png.unfilter (filterLines unit rowLength rows) rowLength unit
          = (.ok (), ((rows.map Prod.snd).map plainLine).flatten) := by
      intro hspace
      rw [unfilter_filterLines hunit hrow hspace hrows, List.map_map]
      rfl
    refine ⟨filterLines unit rowLength rows, filterRows?_none hrows,
      filterRows_none hunit hrows, ⟨?_, ?_⟩, ?_⟩
    · rintro ⟨lines, hlines, -⟩
      refine Nat.lt_of_not_le fun hlong => ?_
      rw [unfilter_of_tooLong _ hunit hlong] at hlines
      cases hlines
    · intro hspace
      exact ⟨_, hback hspace, stripFilterNumbers_plainLines hraw⟩
    · intro hspace hdata
      refine ⟨_, by rw [unfilterInPlace_eq hspace, hback hspace]; rfl, ?_⟩
      rw [stripFilterNumbers_eq hspace, stripFilterNumbers_plainLines hraw]
      rw [length_of_unfilter (hback hspace)]
      exact hdata
  · intro data lines hlines
    obtain ⟨rows, hrows, hgroups, rfl, rfl⟩ := exists_rows_of_unfilter hlines
    have hraw : ∀ row ∈ rows.map Prod.snd, row.length = rowLength := List.forall_mem_map.2 hrows
    have hzip : rows = (rows.map Prod.fst).zip (rows.map Prod.snd) := List.zip_of_prod rfl rfl
    refine ⟨rows.map Prod.fst, ?_, ?_, ?_⟩
    · rw [hgroups, head?_filterLine, List.map_map]
      rfl
    · rw [stripFilterNumbers_plainLines hraw, Bytes.wholeGroups_flatten hrow hraw, ← hzip]
      exact filterRows?_none hrows
    · rw [stripFilterNumbers_plainLines hraw, Bytes.wholeGroups_flatten hrow hraw, ← hzip]
      exact filterRows_none hunit hrows

/-- Rows of three bytes, which are not whole units of two. -/
def mixedRows : List (Filter × Bytes) :=
  [(.average, [10, 200, 3]), (.paeth, [9, 7, 255]), (.sub, [0, 1, 2])]

def mixedLines : Bytes := [3, 10, 200, 254, 4, 255, 63, 252, 1, 0, 1, 2]

theorem refiltering_mixedRows :
    (0 < 3 ∧ 0 < 2) ∧ filterRows? 2 none mixedRows = some mixedLines
      ∧ ∃ lines, Png.unfilter mixedLines 3 2 = (.ok (), lines)
        ∧ Png.stripFilterNumbers lines 3 = (mixedRows.map Prod.snd).flatten
        ∧ ∃ filters : List Filter, filterRows? 2 none (filters.zip
            (Bytes.wholeGroups 3 (Png.stripFilterNumbers lines 3))) = some mixedLines := by
  have hrow : 0 < 3 := by decide
  have hunit : 0 < 2 := by decide
  have hfiltered : filterRows? 2 none mixedRows = some mixedLines := by decide +kernel
  obtain ⟨rowsBack, linesBack⟩ := refiltering hrow hunit
  obtain ⟨data, hdata, -, hback, -⟩ := rowsBack mixedRows (by decide)
  obtain rfl : data = mixedLines := Option.some.inj (hdata.symm.trans hfiltered)
  obtain ⟨lines, hlines, hraw⟩ := hback.2 (by decide)
  obtain ⟨filters, -, hagain, -⟩ := linesBack mixedLines lines hlines
  exact ⟨⟨hrow, hunit⟩, hfiltered, lines, hlines, hraw, filters, hagain⟩

/-- With the longest rows not even no rows at all come back. -/
theorem noRows_of_longestRow :
    filterRows? 1 none [] = some []
      ∧ ¬ (∃ lines, Png.unfilter [] longestRow 1 = (.ok (), lines)
        ∧ Png.stripFilterNumbers lines longestRow = [])
      ∧ unfilterInPlace [] longestRow 1 = .error .overflow := by
  refine ⟨rfl, ?_, unfilterInPlace_overflow (by decide)⟩
  rintro ⟨lines, hlines, -⟩
  rw [unfilter_of_tooLong [] (by decide) (by decide)] at hlines
  cases hlines

/-! ### A clean end -/

/-- Unfiltering in place ends cleanly unless a line would have no length; then the machine stops. -/
theorem unfilterInPlace_clean (data : Bytes) (rowLength unit : Nat) :
    (UnfiltersCleanly data rowLength unit ↔ unit = 0 ∨ rowLength + 1 < addressSpace)
      ∧ unfilterInPlace data rowLength unit
        = if rowLength + 1 < addressSpace then
            .ok (endOf (Png.unfilter data rowLength unit).1, (Png.unfilter data rowLength unit).2)
          else .error .overflow := by
  refine ⟨unfiltersCleanly_iff, ?_⟩
  split
  · rename_i hspace
    exact unfilterInPlace_eq hspace
  · rename_i hlong
    exact unfilterInPlace_overflow (Nat.le_of_not_lt hlong)

/-- The second of two lines has no filter: the first one is done, and a second run stops there. -/
theorem unfilterInPlace_badLine :
    Png.unfilter [1, 5, 9, 7] 1 1 = (.error .malformed, [0, 5, 9, 7])
      ∧ UnfiltersCleanly [1, 5, 9, 7] 1 1
      ∧ unfilterInPlace [1, 5, 9, 7] 1 1 = .ok (.error .malformed, [0, 5, 9, 7]) := by
  have hresult : Png.unfilter [1, 5, 9, 7] 1 1 = (.error .malformed, [0, 5, 9, 7]) := by rfl
  obtain ⟨hclean, hmachine⟩ := unfilterInPlace_clean [1, 5, 9, 7] 1 1
  refine ⟨hresult, hclean.2 (Or.inr (by decide)), ?_⟩
  rw [hmachine, hresult]
  rfl

/-- One byte is no line of the longest row, but the machine stops before it says so. -/
theorem oneByte_of_longestRow :
    ¬ UnfiltersCleanly [0] longestRow 1 ∧ unfilterInPlace [0] longestRow 1 = .error .overflow := by
  refine ⟨fun hclean => ?_, unfilterInPlace_overflow (by decide)⟩
  rcases unfiltersCleanly_iff.1 hclean with hunit | hspace
  · cases hunit
  · exact absurd hspace (by decide)

end Machine

end DialGraphics
