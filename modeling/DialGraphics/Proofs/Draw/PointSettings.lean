import DialGraphics.Proofs.Draw.StoredBytes

/-!
# Points that are set and read

A setting of a point writes the two words of that point and no others. So the point is read back, a
later setting takes the place of an earlier one, and settings of different points do not meet. What
the words cannot hold is lost on the way: a fraction where whole pixels are stored, and the high
bits of whole pixels where eighths are.
-/

namespace DialGraphics

/-! ### Eighths and whole pixels -/

theorem toInt_wholePixels (c : Int16) : (wholePixels c).toInt = c.toInt / 8 := by
  show (c >>> 3).toBitVec.toInt = c.toBitVec.toInt / 8
  rw [Int16.toBitVec_shiftRight]
  show (c.toBitVec.sshiftRight 3).toInt = c.toBitVec.toInt / 8
  rw [BitVec.toInt_sshiftRight, Int.shiftRight_eq_div_pow]
  rfl

theorem toInt_eighths (c : Int16) : (eighths c).toInt = Int.bmod (8 * c.toInt) 65536 := by
  have hbits : (eighths c).toInt = (c.toBitVec <<< 3).toInt := by
    show (c <<< 3).toBitVec.toInt = _
    rw [Int16.toBitVec_shiftLeft]
    rfl
  have hvalue : c.toInt = Int.bmod c.toBitVec.toNat 65536 := BitVec.toInt_eq_toNat_bmod _
  rw [hbits, BitVec.toInt_shiftLeft, Nat.shiftLeft_eq, hvalue]
  simp only [Int.bmod_def]
  omega

/-- Of a coordinate that goes through eighths thirteen bits are left, the highest as a sign. -/
theorem toInt_wholePixels_eighths (c : Int16) :
    (wholePixels (eighths c)).toInt = Int.bmod c.toInt 8192 := by
  rw [toInt_wholePixels, toInt_eighths, Int.bmod_def, Int.bmod_def]
  omega

theorem wholePixels_eighths_eq_iff {c : Int16} :
    wholePixels (eighths c) = c ↔ -4096 ≤ c.toInt ∧ c.toInt < 4096 := by
  have hlow := c.le_toInt
  have hhigh := c.toInt_lt
  rw [← Int16.toInt_inj, toInt_wholePixels_eighths, Int.bmod_def]
  omega

/-- Eighths can hold both coordinates. -/
def Point.FitsEighths (p : Point) : Prop :=
  (-4096 ≤ p.x.toInt ∧ p.x.toInt < 4096) ∧ -4096 ≤ p.y.toInt ∧ p.y.toInt < 4096

instance (p : Point) : Decidable p.FitsEighths := inferInstanceAs (Decidable (_ ∧ _ ∧ _))

theorem PrecisePoint.toPoint_ofPoint_eq_iff {p : Point} :
    (ofPoint p).toPoint = p ↔ p.FitsEighths := by
  obtain ⟨x, y⟩ := p
  simp only [toPoint, ofPoint, Point.mk.injEq, wholePixels_eighths_eq_iff, Point.FitsEighths]

theorem Bytes.overwrite_append (front bytes new : Bytes) (pos : Nat) :
    (front ++ bytes).overwrite (front.length + pos) new = front ++ bytes.overwrite pos new := by
  simp only [overwrite, Nat.add_assoc, List.take_length_add_append, List.drop_length_add_append,
    List.append_assoc]

namespace Draw

/-! ### The points of a record -/

theorem overwrite_encodePairs {pairs : List (Int16 × Int16)} {i : Nat} (hi : i < pairs.length)
    (x y : Int16) :
    (encodePairs pairs).overwrite (i * pointSize) (encodePair x y)
      = encodePairs (pairs.set i (x, y)) := by
  induction pairs generalizing i with
  | nil => exact absurd hi (Nat.not_lt_zero i)
  | cons p pairs ih =>
    cases i with
    | zero =>
      rw [Nat.zero_mul, List.set_cons_zero, encodePairs_cons, encodePairs_cons]
      rfl
    | succ i =>
      have hplace : (i + 1) * pointSize = (encodePair p.1 p.2).length + i * pointSize := by
        rw [length_encodePair, pointSize]
        omega
      rw [List.set_cons_succ, encodePairs_cons, encodePairs_cons, hplace, Bytes.overwrite_append,
        ih (Nat.lt_of_succ_lt_succ hi)]

namespace Record

variable {r : Record} {pairs : List (Int16 × Int16)}

/-- The record with other points. -/
def withPairs (r : Record) (pairs : List (Int16 × Int16)) : Record :=
  { r with points := encodePairs pairs }

theorem IsWellFormed.exists_withPairs (h : r.IsWellFormed) :
    ∃ pairs, pairs.length = r.count.toNat ∧ r = r.withPairs pairs := by
  obtain ⟨pairs, hlength, hpoints⟩ := exists_pairs h.length_points
  refine ⟨pairs, hlength, ?_⟩
  rw [withPairs, ← hpoints]

theorem IsWellFormed.read?_withPairs (h : r.IsWellFormed) (hlength : pairs.length = r.count.toNat) :
    read? (r.withPairs pairs).toBytes = some (r.withPairs pairs, []) := by
  have hwell : (r.withPairs pairs).IsWellFormed :=
    ⟨h.allows, (length_encodePairs pairs).trans (by rw [hlength]; rfl)⟩
  have hread := read?_toBytes_append hwell []
  rwa [List.append_nil] at hread

theorem point?_withPairs (i : Nat) :
    (r.withPairs pairs).point? i = pairs[i]?.map fun p =>
      if r.kind = .precisePath then (PrecisePoint.mk p.1 p.2).toPoint else ⟨p.1, p.2⟩ := by
  rw [point?, pair?_of_points rfl]
  rfl

theorem precisePoint?_withPairs (i : Nat) :
    (r.withPairs pairs).precisePoint? i = pairs[i]?.map fun p =>
      if r.kind = .precisePath then ⟨p.1, p.2⟩ else .ofPoint ⟨p.1, p.2⟩ := by
  rw [precisePoint?, pair?_of_points rfl]
  rfl

end Record

namespace Setting

variable {r : Record} {pairs : List (Int16 × Int16)} {s t : Setting} {i j : Nat}

/-! ### What a setting of a point stores -/

/-- The point that is set. -/
def pointIndex? : Setting → Option Nat
  | .point index _ | .precisePoint index _ => some index
  | _ => none

/-- The point that is set, and the words that a record of some kind holds for it afterwards. -/
def storedPair? (kind : Kind) : Setting → Option (Nat × Int16 × Int16)
  | .point index p =>
    some (index,
      if kind = .precisePath then ((PrecisePoint.ofPoint p).x, (PrecisePoint.ofPoint p).y)
      else (p.x, p.y))
  | .precisePoint index p =>
    some (index, if kind = .precisePath then (p.x, p.y) else (p.toPoint.x, p.toPoint.y))
  | _ => none

theorem exists_storedPair? (hs : s.pointIndex? = some i) (kind : Kind) :
    ∃ pair, s.storedPair? kind = some (i, pair) := by
  cases s with
  | point index p =>
    cases hs
    exact ⟨_, rfl⟩
  | precisePoint index p =>
    cases hs
    exact ⟨_, rfl⟩
  | _ => cases hs

/-- What becomes of a setting of one of `n` points. -/
def outcomeAt (i n : Nat) : Except DecodeError Unit :=
  if i < n then .ok () else .error .badParameter

theorem writePair_withPairs (r : Record) (pairs : List (Int16 × Int16)) (i : Nat) (x y : Int16) :
    writePair (r.withPairs pairs).toBytes i x y
      = (outcomeAt i pairs.length, (r.withPairs (pairs.set i (x, y))).toBytes) := by
  have hlength : (r.withPairs pairs).toBytes.length
      = recordHeaderSize + pairs.length * pointSize := by
    rw [Record.length_toBytes, Record.size, Record.withPairs, length_encodePairs]
  simp only [writePair, outcomeAt, hlength, recordHeaderSize, pointSize]
  by_cases hi : i < pairs.length
  · rw [if_pos (by omega), if_pos hi]
    congr 1
    simp only [Record.toBytes, Record.withPairs]
    rw [← overwrite_encodePairs hi]
    exact Bytes.overwrite_append _ _ _ _
  · rw [if_neg (by omega), if_neg hi, List.set_eq_of_length_le (Nat.le_of_not_lt hi)]

theorem kindOf?_toBytes (r : Record) : kindOf? r.toBytes = some r.kind :=
  Kind.ofNumber?_number r.kind

/-- A setting of a point changes that point in the list of points, if it is there. -/
theorem apply_withPairs {pair : Int16 × Int16} (hs : s.storedPair? r.kind = some (i, pair)) :
    s.apply (r.withPairs pairs).toBytes
      = (outcomeAt i pairs.length, (r.withPairs (pairs.set i pair)).toBytes) := by
  have hkind : kindOf? (r.withPairs pairs).toBytes = some r.kind := kindOf?_toBytes _
  cases s with
  | point index p =>
    cases hs
    simp only [apply, hkind, writePair_withPairs, Option.some.injEq]
    split
    · rfl
    · rfl
  | precisePoint index p =>
    cases hs
    simp only [apply, hkind, writePair_withPairs, Option.some.injEq]
    split
    · rfl
    · rfl
  | _ => cases hs

/-! ### Reading back -/

section

variable (hwell : r.IsWellFormed) (hlength : pairs.length = r.count.toNat)
include hwell hlength

theorem read?_apply {pair : Int16 × Int16} (hs : s.storedPair? r.kind = some (i, pair)) :
    Record.read? (s.apply (r.withPairs pairs).toBytes).2
      = some (r.withPairs (pairs.set i pair), []) := by
  rw [apply_withPairs hs]
  exact hwell.read?_withPairs (List.length_set.trans hlength)

/-- Whole pixels are read back if the words that are stored can hold them. -/
theorem point_reads_back (hi : i < pairs.length) (p : Point) :
    ∃ after q, Record.read? ((point i p).apply (r.withPairs pairs).toBytes).2 = some (after, [])
      ∧ after.point? i = some q
      ∧ (q = p ↔ (r.kind = .precisePath → p.FitsEighths))
      ∧ (r.kind = .precisePath →
        q.x.toInt = Int.bmod p.x.toInt 8192 ∧ q.y.toInt = Int.bmod p.y.toInt 8192) := by
  refine ⟨_, if r.kind = .precisePath then (PrecisePoint.ofPoint p).toPoint else p,
    read?_apply hwell hlength rfl, ?_, ?_⟩
  · rw [Record.point?_withPairs, List.getElem?_set_self hi, Option.map_some]
    by_cases hkind : r.kind = .precisePath
    · simp only [if_pos hkind]
    · simp only [if_neg hkind]
  · by_cases hkind : r.kind = .precisePath
    · rw [if_pos hkind, PrecisePoint.toPoint_ofPoint_eq_iff]
      exact ⟨⟨fun hfits _ => hfits, fun hfits => hfits hkind⟩,
        fun _ => ⟨toInt_wholePixels_eighths p.x, toInt_wholePixels_eighths p.y⟩⟩
    · rw [if_neg hkind]
      exact ⟨⟨fun _ hprecise => absurd hprecise hkind, fun _ => rfl⟩,
        fun hprecise => absurd hprecise hkind⟩

/-- Eighths are read back where eighths are stored, and everywhere as the whole pixels below. -/
theorem precisePoint_reads_back (hi : i < pairs.length) (q : PrecisePoint) :
    ∃ after p, Record.read? ((precisePoint i q).apply (r.withPairs pairs).toBytes).2
        = some (after, [])
      ∧ (r.kind = .precisePath → after.precisePoint? i = some q)
      ∧ after.point? i = some p ∧ p.x.toInt = q.x.toInt / 8 ∧ p.y.toInt = q.y.toInt / 8 := by
  refine ⟨_, q.toPoint, read?_apply hwell hlength rfl, fun hkind => ?_, ?_,
    toInt_wholePixels q.x, toInt_wholePixels q.y⟩
  · rw [Record.precisePoint?_withPairs, List.getElem?_set_self hi, Option.map_some]
    simp only [if_pos hkind]
  · rw [Record.point?_withPairs, List.getElem?_set_self hi, Option.map_some]
    by_cases hkind : r.kind = .precisePath
    · simp only [if_pos hkind]
    · simp only [if_neg hkind]

end

/-! ### One setting after another -/

theorem apply_same_point (r : Record) (pairs : List (Int16 × Int16))
    (hs : s.pointIndex? = some i) (ht : t.pointIndex? = some i) :
    t.apply (s.apply (r.withPairs pairs).toBytes).2 = t.apply (r.withPairs pairs).toBytes := by
  obtain ⟨first, hfirst⟩ := exists_storedPair? hs r.kind
  obtain ⟨second, hsecond⟩ := exists_storedPair? ht r.kind
  rw [apply_withPairs hfirst, apply_withPairs hsecond, apply_withPairs hsecond, List.length_set,
    List.set_set]

theorem apply_other_point (r : Record) (pairs : List (Int16 × Int16))
    (hs : s.pointIndex? = some i) (ht : t.pointIndex? = some j) (hij : i ≠ j) :
    t.apply (s.apply (r.withPairs pairs).toBytes).2
      = ((t.apply (r.withPairs pairs).toBytes).1,
        (s.apply (t.apply (r.withPairs pairs).toBytes).2).2) := by
  obtain ⟨first, hfirst⟩ := exists_storedPair? hs r.kind
  obtain ⟨second, hsecond⟩ := exists_storedPair? ht r.kind
  rw [apply_withPairs hfirst, apply_withPairs hsecond, apply_withPairs hsecond,
    apply_withPairs hfirst, List.length_set, List.set_comm _ _ hij]

/-- A point of a command can be set exactly if the command has it, and is then read back: whole
pixels as they were, unless eighths have to hold them and cannot, in which case thirteen bits of
each coordinate are left; eighths as they were on a path of eighths, and else rounded down. A later
setting of the same point takes the place of an earlier one, and settings of two points can change
places. -/
theorem points_set_and_read {bytes rest : Bytes} (h : Record.read? bytes = some (r, rest)) :
    let slot := bytes.take r.size
    (∀ s : Setting, applyAtFront? [s] bytes = some ([(s.apply slot).1], (s.apply slot).2, rest))
      ∧ (∀ (s : Setting) (i : Nat), s.pointIndex? = some i →
        (s.apply slot).1 = if i < r.count.toNat then .ok () else .error .badParameter)
      ∧ (∀ (i : Nat) (p : Point), i < r.count.toNat →
        ∃ after q, Record.read? ((point i p).apply slot).2 = some (after, [])
          ∧ after.point? i = some q
          ∧ (q = p ↔ (r.kind = .precisePath → p.FitsEighths))
          ∧ (r.kind = .precisePath →
            q.x.toInt = Int.bmod p.x.toInt 8192 ∧ q.y.toInt = Int.bmod p.y.toInt 8192))
      ∧ (∀ (i : Nat) (q : PrecisePoint), i < r.count.toNat →
        ∃ after p, Record.read? ((precisePoint i q).apply slot).2 = some (after, [])
          ∧ (r.kind = .precisePath → after.precisePoint? i = some q)
          ∧ after.point? i = some p ∧ p.x.toInt = q.x.toInt / 8 ∧ p.y.toInt = q.y.toInt / 8)
      ∧ (∀ (s t : Setting) (i : Nat), s.pointIndex? = some i → t.pointIndex? = some i →
        t.apply (s.apply slot).2 = t.apply slot)
      ∧ ∀ (s t : Setting) (i j : Nat), s.pointIndex? = some i → t.pointIndex? = some j → i ≠ j →
        t.apply (s.apply slot).2 = ((t.apply slot).1, (s.apply (t.apply slot).2).2)
          ∧ (s.apply (t.apply slot).2).1 = (s.apply slot).1 := by
  obtain ⟨hwell, hbytes⟩ := Record.eq_toBytes_append_of_read? h
  obtain ⟨pairs, hlength, hpairs⟩ := hwell.exists_withPairs
  have hslot : bytes.take r.size = (r.withPairs pairs).toBytes := by
    rw [hbytes, ← Record.length_toBytes, List.take_left, ← hpairs]
  have hrest : bytes.drop r.size = rest := by
    rw [hbytes, ← Record.length_toBytes, List.drop_left]
  rw [hslot, ← hlength]
  refine ⟨?_, ?_, fun i p hi => point_reads_back hwell hlength hi p,
    fun i q hi => precisePoint_reads_back hwell hlength hi q,
    fun s t i hs ht => apply_same_point r pairs hs ht, ?_⟩
  · intro s
    rw [applyAtFront?, recordSize?, h, ← hrest, ← hslot]
    rfl
  · intro s i hs
    obtain ⟨pair, hpair⟩ := exists_storedPair? hs r.kind
    rw [apply_withPairs hpair]
    rfl
  · intro s t i j hs ht hij
    refine ⟨apply_other_point r pairs hs ht hij, ?_⟩
    rw [apply_other_point r pairs ht hs hij.symm]

/-- A precise path through two points. -/
def twoPointPath (first second : Int16 × Int16) : Record where
  kind := .precisePath
  flags := 0
  strokeColor := ⟨0xC0⟩
  strokeWidth := 1
  fillColor := ⟨0⟩
  openOrRadius := 0
  count := 2
  points := encodePairs [first, second]

/-- The path has two bytes behind it. Its second point is set, and a third one is not there. -/
theorem points_set_and_read_twoPointPath :
    let bytes := (twoPointPath (8, -1) (16, 24)).toBytes ++ [7, 7]
    Record.read? bytes = some (twoPointPath (8, -1) (16, 24), [7, 7])
      ∧ (∃ after, Record.read? ((point 1 ⟨-4096, 4095⟩).apply (bytes.take 17)).2 = some (after, [])
        ∧ after.point? 1 = some ⟨-4096, 4095⟩)
      ∧ ((precisePoint 2 ⟨1, 1⟩).apply (bytes.take 17)).1 = .error .badParameter := by
  have hread : Record.read? ((twoPointPath (8, -1) (16, 24)).toBytes ++ [7, 7])
      = some (twoPointPath (8, -1) (16, 24), [7, 7]) := rfl
  obtain ⟨-, hresult, hpoint, -⟩ := points_set_and_read hread
  obtain ⟨after, q, hafter, hq, hsame, -⟩ := hpoint 1 ⟨-4096, 4095⟩ (by decide)
  refine ⟨hread, ⟨after, hafter, ?_⟩, hresult (precisePoint 2 ⟨1, 1⟩) 2 rfl⟩
  rw [hq, hsame.2 fun _ => by decide]

/-- The path takes a point that it cannot hold, and gives another one back. -/
theorem point_set_and_wrapped :
    (point 0 ⟨4096, 0⟩).apply (twoPointPath (0, 0) (0, 0)).toBytes
        = (.ok (), (twoPointPath (-32768, 0) (0, 0)).toBytes)
      ∧ (twoPointPath (-32768, 0) (0, 0)).point? 0 = some ⟨-4096, 0⟩
      ∧ (twoPointPath (-32768, 0) (0, 0)).point? 0 ≠ some ⟨4096, 0⟩
      ∧ Record.read? (twoPointPath (0, 0) (0, 0)).toBytes = some (twoPointPath (0, 0) (0, 0), [])
      ∧ Record.read? (twoPointPath (-32768, 0) (0, 0)).toBytes
        = some (twoPointPath (-32768, 0) (0, 0), []) :=
  ⟨rfl, rfl, by decide, rfl, rfl⟩

end Setting

end Draw

end DialGraphics
