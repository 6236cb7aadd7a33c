import DialGraphics.Proofs.Bytes.Words
import DialGraphics.Proofs.Draw.Layout

/-!
# Commands and the bytes they are stored in

A command that is written is read as it was, whatever follows it. A record says more than the
command it holds: one bit of the flags means something, and one of the word that says whether a path
is open. A record that is read and written again has the other bits cleared, and is else as it was;
and so it is for a list of them.
-/

namespace DialGraphics

/-! ### Words -/

theorem Bytes.ite_and_one_byte (byte : UInt8) :
    (if byte &&& 1 != 0 then 1 else 0) = byte &&& 1 := by
  have hbit : (byte &&& 1).toNat = byte.toNat % 2 := by
    rw [UInt8.toNat_and]
    exact Nat.and_one_is_mod _
  by_cases hzero : byte &&& 1 = 0
  · rw [hzero]
    rfl
  · have hne : (byte &&& 1).toNat ≠ 0 := fun h => hzero (UInt8.toNat_inj.1 h)
    rw [if_pos (by simpa using hzero)]
    apply UInt8.toNat_inj.1
    show 1 = (byte &&& 1).toNat
    omega

theorem Bytes.ite_and_one_word (word : UInt16) :
    (if word &&& 1 != 0 then 1 else 0) = word &&& 1 := by
  have hbit : (word &&& 1).toNat = word.toNat % 2 := by
    rw [UInt16.toNat_and]
    exact Nat.and_one_is_mod _
  by_cases hzero : word &&& 1 = 0
  · rw [hzero]
    rfl
  · have hne : (word &&& 1).toNat ≠ 0 := fun h => hzero (UInt16.toNat_inj.1 h)
    rw [if_pos (by simpa using hzero)]
    apply UInt16.toNat_inj.1
    show 1 = (word &&& 1).toNat
    omega

namespace Draw

/-! ### Points -/

def encodePairs (pairs : List (Int16 × Int16)) : Bytes :=
  (pairs.map fun p => encodePair p.1 p.2).flatten

theorem encodePairs_cons (p : Int16 × Int16) (pairs : List (Int16 × Int16)) :
    encodePairs (p :: pairs) = encodePair p.1 p.2 ++ encodePairs pairs := rfl

theorem length_encodePairs (pairs : List (Int16 × Int16)) :
    (encodePairs pairs).length = pairs.length * pointSize := by
  induction pairs with
  | nil => rfl
  | cons p pairs ih =>
    rw [encodePairs_cons, List.length_append, ih, length_encodePair, List.length_cons]
    unfold pointSize
    omega

theorem encodePair_word16 (x0 x1 y0 y1 : UInt8) :
    encodePair (Bytes.word16 x0 x1).toInt16 (Bytes.word16 y0 y1).toInt16 = [x0, x1, y0, y1] := by
  rw [encodePair, UInt16.toUInt16_toInt16, UInt16.toUInt16_toInt16, Bytes.ofWord16_word16,
    Bytes.ofWord16_word16]
  rfl

theorem exists_pairs {points : Bytes} {n : Nat} (h : points.length = n * pointSize) :
    ∃ pairs, pairs.length = n ∧ points = encodePairs pairs := by
  induction n generalizing points with
  | zero => exact ⟨[], rfl, List.eq_nil_of_length_eq_zero (h.trans (Nat.zero_mul _))⟩
  | succ n ih =>
    rw [pointSize, Nat.succ_mul] at h
    rcases points with _ | ⟨x0, _ | ⟨x1, _ | ⟨y0, _ | ⟨y1, others⟩⟩⟩⟩
    case cons.cons.cons.cons =>
      have hothers : others.length = n * pointSize := by
        simp only [List.length_cons] at h
        unfold pointSize
        omega
      obtain ⟨pairs, hlength, rfl⟩ := ih hothers
      refine ⟨((Bytes.word16 x0 x1).toInt16, (Bytes.word16 y0 y1).toInt16) :: pairs, ?_, ?_⟩
      · rw [List.length_cons, hlength]
      · rw [encodePairs_cons, encodePair_word16]
        rfl
    -- fewer bytes than one point has
    all_goals
      simp only [List.length_nil, List.length_cons] at h
      omega

namespace Record

theorem pair?_of_points {r : Record} {pairs : List (Int16 × Int16)}
    (h : r.points = encodePairs pairs) (i : Nat) : r.pair? i = pairs[i]? := by
  rw [pair?, h]
  clear h
  induction pairs generalizing i with
  | nil => rw [show encodePairs [] = [] from rfl, List.drop_nil, List.getElem?_nil]
  | cons p pairs ih =>
    cases i with
    | zero =>
      simp only [encodePairs_cons, encodePair, Bytes.ofWord16, Nat.zero_mul, List.drop_zero,
        List.cons_append, List.nil_append, Bytes.word16_ofWord16, Int16.toInt16_toUInt16,
        List.getElem?_cons_zero]
    | succ i =>
      rw [List.getElem?_cons_succ, ← ih i, encodePairs_cons, Nat.succ_mul, Nat.add_comm,
        ← List.drop_drop]
      rfl

theorem filterMap_range_getElem? {α β : Type} (xs : List α) (f : α → β) :
    ((List.range xs.length).filterMap fun i => xs[i]?.map f) = xs.map f := by
  induction xs with
  | nil => rfl
  | cons x xs ih =>
    simp only [List.length_cons, List.range_succ_eq_map, List.filterMap_cons, List.filterMap_map,
      List.getElem?_cons_zero, Option.map_some, List.map_cons, ← ih]
    rfl

/-! ### Records -/

def toBytes (r : Record) : Bytes :=
  encodeHeader r.kind r.flags r.strokeColor r.strokeWidth r.fillColor r.openOrRadius r.count.toNat
    ++ r.points

/-- The record without what means nothing: all flags but the lowest, and all bits but the lowest of
the word that says whether a path is open. -/
def cleared (r : Record) : Record :=
  { r with
    flags := r.flags &&& 1
    openOrRadius := if r.kind = .circle then r.openOrRadius else r.openOrRadius &&& 1 }

structure IsWellFormed (r : Record) : Prop where
  allows : r.kind.allows r.count.toNat = true
  length_points : r.points.length = r.count.toNat * pointSize

variable {r : Record}

theorem toBytes_append (r : Record) (rest : Bytes) :
    r.toBytes ++ rest = r.kind.number :: r.flags :: r.strokeColor.argb :: r.strokeWidth
      :: r.fillColor.argb :: UInt8.ofNat (r.openOrRadius.toNat % 256)
      :: UInt8.ofNat (r.openOrRadius.toNat / 256) :: UInt8.ofNat (r.count.toNat % 256)
      :: UInt8.ofNat (r.count.toNat / 256) :: (r.points ++ rest) := by
  rw [toBytes, encodeHeader, UInt16.ofNat_toNat]
  rfl

theorem read?_toBytes_append (h : r.IsWellFormed) (rest : Bytes) :
    read? (r.toBytes ++ rest) = some (r, rest) := by
  have hsplit : Bytes.splitAt? (r.count.toNat * pointSize) (r.points ++ rest)
      = some (r.points, rest) := Bytes.splitAt?_eq_some_iff.2 ⟨h.length_points, rfl⟩
  simp only [toBytes_append, read?, Kind.ofNumber?_number, Bytes.word16_ofWord16, h.allows, if_true,
    hsplit, Option.map_some]

theorem eq_toBytes_append_of_read? {bytes rest : Bytes} (h : read? bytes = some (r, rest)) :
    r.IsWellFormed ∧ bytes = r.toBytes ++ rest := by
  unfold read? at h
  split at h
  · rename_i number flags stroke width fill o0 o1 n0 n1 tail
    split at h
    · cases h
    · rename_i kind hkind
      simp only at h
      split at h
      · rename_i hallows
        obtain ⟨⟨points, tail'⟩, hsplit, hr⟩ := Option.map_eq_some_iff.1 h
        obtain ⟨hlength, rfl⟩ := Bytes.splitAt?_eq_some_iff.1 hsplit
        cases hr
        refine ⟨⟨hallows, hlength⟩, ?_⟩
        rw [toBytes, encodeHeader, UInt16.ofNat_toNat, Bytes.ofWord16_word16,
          Bytes.ofWord16_word16, Kind.eq_number_of_ofNumber? hkind]
        rfl
      · cases h
  · cases h

theorem length_toBytes (r : Record) : r.toBytes.length = r.size := by
  have h := congrArg List.length (toBytes_append r [])
  rw [List.append_nil, List.append_nil] at h
  simp only [List.length_cons] at h
  rw [h, size, recordHeaderSize]
  omega

/-! ### Commands -/

/-- The record of a command as it is written. -/
def ofCommand (c : Command) : Record where
  kind := c.shape.kind
  flags := if c.hidden then 1 else 0
  strokeColor := c.strokeColor
  strokeWidth := c.strokeWidth
  fillColor := c.fillColor
  openOrRadius := c.shape.openOrRadius
  count := UInt16.ofNat c.shape.pairs.length
  points := encodePairs c.shape.pairs

variable {c : Command}

theorem toBytes_ofCommand (c : Command) : (ofCommand c).toBytes = c.encode := by
  rw [toBytes, ofCommand, encodeHeader, UInt16.ofNat_toNat]
  rfl

theorem toNat_count_ofCommand (hc : c.shape.isStorable = true) :
    (ofCommand c).count.toNat = c.shape.pairs.length := by
  simp only [Shape.isStorable, Bool.and_eq_true, decide_eq_true_eq] at hc
  show (UInt16.ofNat c.shape.pairs.length).toNat = _
  rw [UInt16.toNat_ofNat', Nat.mod_eq_of_lt hc.2]

theorem isWellFormed_ofCommand (hc : c.shape.isStorable = true) : (ofCommand c).IsWellFormed := by
  have hcount := toNat_count_ofCommand hc
  simp only [Shape.isStorable, Bool.and_eq_true] at hc
  exact {
    allows := by
      rw [hcount]
      exact hc.1
    length_points := by
      rw [hcount]
      exact length_encodePairs _ }

theorem shape_of_circle {p : Int16 × Int16} (hkind : r.kind = .circle)
    (hpoints : r.points = encodePairs [p]) :
    r.shape = .ok (.circle ⟨p.1, p.2⟩ r.openOrRadius) := by
  have hpair : r.pair? 0 = some p := pair?_of_points hpoints 0
  simp only [shape, hkind, point?, hpair, Option.map_some, radius]
  rfl

theorem shape_of_path {pairs : List (Int16 × Int16)} (hkind : r.kind = .path)
    (hpoints : r.points = encodePairs pairs) (hcount : r.count.toNat = pairs.length) :
    r.shape = .ok (.path r.isOpen (pairs.map fun p => ⟨p.1, p.2⟩)) := by
  have hpair : r.point? = fun i => pairs[i]?.map fun p => ⟨p.1, p.2⟩ := by
    funext i
    simp only [point?, pair?_of_points hpoints, hkind]
    rfl
  simp only [shape, hkind, hcount, hpair, filterMap_range_getElem?]

theorem shape_of_precisePath {pairs : List (Int16 × Int16)} (hkind : r.kind = .precisePath)
    (hpoints : r.points = encodePairs pairs) (hcount : r.count.toNat = pairs.length) :
    r.shape = .ok (.precisePath r.isOpen (pairs.map fun p => ⟨p.1, p.2⟩)) := by
  have hpair : r.precisePoint? = fun i => pairs[i]?.map fun p => ⟨p.1, p.2⟩ := by
    funext i
    simp only [precisePoint?, pair?_of_points hpoints, hkind]
    rfl
  simp only [shape, hkind, hcount, hpair, filterMap_range_getElem?]

theorem hidden_ofCommand (c : Command) : (ofCommand c).hidden = c.hidden := by
  simp only [hidden, ofCommand]
  cases c.hidden <;> rfl

theorem isOpen_ofCommand {isOpen : Bool} (hkind : c.shape.kind ≠ .circle)
    (hopen : c.shape.openOrRadius = if isOpen then 1 else 0) : (ofCommand c).isOpen = isOpen := by
  have hcircle : (c.shape.kind != Kind.circle) = true := by simpa using hkind
  simp only [Record.isOpen, ofCommand, hcircle, hopen, Bool.true_and]
  cases isOpen <;> rfl

theorem shape_ofCommand (hc : c.shape.isStorable = true) : (ofCommand c).shape = .ok c.shape := by
  have hcount := toNat_count_ofCommand hc
  have hkind : (ofCommand c).kind = c.shape.kind := rfl
  have hpoints : (ofCommand c).points = encodePairs c.shape.pairs := rfl
  cases hshape : c.shape with
  | circle center radius =>
    rw [hshape] at hkind hpoints
    rw [shape_of_circle hkind hpoints, ofCommand, hshape]
    rfl
  | path isOpen points =>
    have hopen : (ofCommand c).isOpen = isOpen :=
      isOpen_ofCommand (by simp [hshape, Shape.kind]) (by rw [hshape]; rfl)
    rw [hshape] at hkind hpoints hcount
    rw [shape_of_path hkind hpoints hcount, hopen, Shape.pairs, List.map_map]
    exact congrArg (fun ps => Except.ok (Shape.path isOpen ps)) (List.map_id points)
  | precisePath isOpen points =>
    have hopen : (ofCommand c).isOpen = isOpen :=
      isOpen_ofCommand (by simp [hshape, Shape.kind]) (by rw [hshape]; rfl)
    rw [hshape] at hkind hpoints hcount
    rw [shape_of_precisePath hkind hpoints hcount, hopen, Shape.pairs, List.map_map]
    exact congrArg (fun ps => Except.ok (Shape.precisePath isOpen ps)) (List.map_id points)

theorem command_ofCommand (hc : c.shape.isStorable = true) : (ofCommand c).command = .ok c := by
  rw [command, shape_ofCommand hc, hidden_ofCommand]
  rfl

/-- The shape of a record has the points of the record, and of the word in front of them what means
something. -/
theorem exists_shape (h : r.IsWellFormed) :
    ∃ s, r.shape = .ok s ∧ s.kind = r.kind ∧ encodePairs s.pairs = r.points
      ∧ s.pairs.length = r.count.toNat ∧ s.openOrRadius = r.cleared.openOrRadius := by
  obtain ⟨pairs, hlength, hpoints⟩ := exists_pairs h.length_points
  have hallows := h.allows
  have hopen : r.kind ≠ .circle →
      (if r.isOpen then 1 else 0)
        = if r.kind = .circle then r.openOrRadius else r.openOrRadius &&& 1 := by
    intro hkind
    have hcircle : (r.kind != Kind.circle) = true := by simpa using hkind
    rw [if_neg hkind, isOpen, hcircle, Bool.true_and, Bytes.ite_and_one_word]
  cases hkind : r.kind with
  | circle =>
    rw [hkind, ← hlength] at hallows
    obtain ⟨p, rfl⟩ := List.length_eq_one_iff.1 (eq_of_beq hallows)
    refine ⟨_, shape_of_circle hkind hpoints, rfl, hpoints.symm, hlength, ?_⟩
    rw [cleared, if_pos hkind]
    rfl
  | path =>
    refine ⟨_, shape_of_path hkind hpoints hlength.symm, rfl, ?_, ?_, ?_⟩
    · rw [Shape.pairs, List.map_map, hpoints]
      exact congrArg encodePairs (List.map_id pairs)
    · rw [Shape.pairs, List.length_map, List.length_map, hlength]
    · exact hopen (by rw [hkind]; decide)
  | precisePath =>
    refine ⟨_, shape_of_precisePath hkind hpoints hlength.symm, rfl, ?_, ?_, ?_⟩
    · rw [Shape.pairs, List.map_map, hpoints]
      exact congrArg encodePairs (List.map_id pairs)
    · rw [Shape.pairs, List.length_map, List.length_map, hlength]
    · exact hopen (by rw [hkind]; decide)

theorem exists_command (h : r.IsWellFormed) :
    ∃ c, r.command = .ok c ∧ c.encode = r.cleared.toBytes := by
  obtain ⟨s, hshape, hkind, hpairs, hcount, hopen⟩ := exists_shape h
  refine ⟨⟨r.hidden, r.strokeColor, r.strokeWidth, r.fillColor, s⟩, ?_, ?_⟩
  · rw [command, hshape]
    rfl
  · have hhidden : (if r.hidden then (1 : UInt8) else 0) = r.flags &&& 1 := Bytes.ite_and_one_byte _
    show encodeHeader s.kind (if r.hidden then 1 else 0) r.strokeColor r.strokeWidth r.fillColor
      s.openOrRadius s.pairs.length ++ encodePairs s.pairs = _
    rw [hhidden, hkind, hpairs, hcount, hopen]
    rfl

end Record

/-! ### Command lists -/

theorem recordsSize?_toBytes_append {records : List Record} (h : ∀ r ∈ records, r.IsWellFormed)
    (rest : Bytes) :
    recordsSize? records.length ((records.map Record.toBytes).flatten ++ rest)
      = some (records.map Record.toBytes).flatten.length := by
  induction records with
  | nil => rfl
  | cons r records ih =>
    have hrecord := h r List.mem_cons_self
    have hrecords := ih fun s hs => h s (List.mem_cons_of_mem r hs)
    simp only [List.map_cons, List.flatten_cons, List.length_cons, List.append_assoc, recordsSize?,
      Record.read?_toBytes_append hrecord, hrecords, Option.map_some, List.length_append,
      Record.length_toBytes]

theorem exists_records {n size : Nat} {bytes : Bytes} (h : recordsSize? n bytes = some size) :
    ∃ (records : List Record) (rest : Bytes), records.length = n ∧ (∀ r ∈ records, r.IsWellFormed)
      ∧ bytes = (records.map Record.toBytes).flatten ++ rest
      ∧ size = (records.map Record.toBytes).flatten.length := by
  induction n generalizing bytes size with
  | zero =>
    cases h
    exact ⟨[], bytes, rfl, fun r hr => absurd hr List.not_mem_nil, rfl, rfl⟩
  | succ n ih =>
    simp only [recordsSize?] at h
    split at h
    · cases h
    · rename_i r tail hr
      obtain ⟨size', hsize', rfl⟩ := Option.map_eq_some_iff.1 h
      obtain ⟨records, rest, hn, hrecords, rfl, rfl⟩ := ih hsize'
      obtain ⟨hrecord, rfl⟩ := Record.eq_toBytes_append_of_read? hr
      refine ⟨r :: records, rest, ?_, List.forall_mem_cons.2 ⟨hrecord, hrecords⟩, ?_, ?_⟩
      · rw [List.length_cons, hn]
      · rw [List.map_cons, List.flatten_cons, List.append_assoc]
      · rw [List.map_cons, List.flatten_cons, List.length_append, Record.length_toBytes]

namespace CommandList

theorem walk_toBytes {records : List Record} (h : ∀ r ∈ records, r.IsWellFormed) :
    walk records.length (records.map Record.toBytes).flatten = records := by
  induction records with
  | nil => rfl
  | cons r records ih =>
    have hrecord := h r List.mem_cons_self
    have hrecords := ih fun s hs => h s (List.mem_cons_of_mem r hs)
    simp only [List.map_cons, List.flatten_cons, List.length_cons, walk,
      Record.read?_toBytes_append hrecord, hrecords]

/-- The bytes of a list whose records are changed before they are written. -/
def toBytesWith (change : Record → Record) (l : CommandList) : Bytes :=
  Bytes.ofWord16 l.count ++ (l.toList.map fun r => (change r).toBytes).flatten

structure IsWellFormed (l : CommandList) : Prop where
  length_toList : l.toList.length = l.count.toNat
  isWellFormed : ∀ r ∈ l.toList, r.IsWellFormed
  records_eq : l.records = (l.toList.map Record.toBytes).flatten

/-- A list that has as many commands as are given, each of them the one at its place. -/
structure Holds (l : CommandList) (commands : List Command) : Prop where
  count : l.count.toNat = commands.length
  get? : ∀ i, (l.get? i).map Record.command = commands[i]?.map .ok

variable {l : CommandList}

theorem IsWellFormed.toBytesWith_id (h : l.IsWellFormed) :
    l.toBytesWith id = Bytes.ofWord16 l.count ++ l.records := by
  rw [toBytesWith, h.records_eq]
  rfl

theorem IsWellFormed.size_eq (h : l.IsWellFormed) : l.size = (l.toBytesWith id).length := by
  rw [h.toBytesWith_id, List.length_append, Bytes.length_ofWord16]
  rfl

theorem IsWellFormed.listSize?_append (h : l.IsWellFormed) (rest : Bytes) :
    listSize? (l.toBytesWith id ++ rest) = some l.size := by
  have hsize := recordsSize?_toBytes_append h.isWellFormed rest
  rw [h.length_toList, ← h.records_eq] at hsize
  rw [h.toBytesWith_id, List.append_assoc, listSize?, Bytes.word16?_ofWord16_append]
  simp only [hsize, Option.map_some, CommandList.size]

theorem IsWellFormed.ofChecked_toBytes (h : l.IsWellFormed) : ofChecked (l.toBytesWith id) = l := by
  rw [h.toBytesWith_id, ofChecked, Bytes.word16?_ofWord16_append]

theorem IsWellFormed.read?_append (h : l.IsWellFormed) (rest : Bytes) :
    read? (l.toBytesWith id ++ rest) = some (l, rest) := by
  rw [read?, h.listSize?_append]
  simp only [h.size_eq, List.take_left, List.drop_left, h.ofChecked_toBytes]

theorem isWellFormed_of_records {records : List Record} (hwell : ∀ r ∈ records, r.IsWellFormed)
    {count : UInt16} (hcount : count.toNat = records.length) :
    IsWellFormed ⟨count, (records.map Record.toBytes).flatten⟩
      ∧ toList ⟨count, (records.map Record.toBytes).flatten⟩ = records := by
  have hlist : toList ⟨count, (records.map Record.toBytes).flatten⟩ = records := by
    rw [toList, hcount]
    exact walk_toBytes hwell
  refine ⟨⟨?_, ?_, ?_⟩, hlist⟩
  · rw [hlist, hcount]
  · rwa [hlist]
  · rw [hlist]

theorem exists_of_listSize? {bytes : Bytes} {size : Nat} (h : listSize? bytes = some size) :
    ∃ (l : CommandList) (rest : Bytes), l.IsWellFormed ∧ bytes = l.toBytesWith id ++ rest
      ∧ size = l.size := by
  unfold listSize? at h
  split at h
  · cases h
  · rename_i count tail hword
    obtain ⟨size', hsize', rfl⟩ := Option.map_eq_some_iff.1 h
    obtain ⟨records, rest, hcount, hrecords, rfl, rfl⟩ := exists_records hsize'
    obtain ⟨hwell, -⟩ := isWellFormed_of_records hrecords hcount.symm
    refine ⟨_, rest, hwell, ?_, rfl⟩
    rw [hwell.toBytesWith_id, List.append_assoc]
    exact Bytes.eq_ofWord16_append_of_word16? hword

theorem read?_eq_some_iff {bytes rest : Bytes} :
    read? bytes = some (l, rest) ↔ l.IsWellFormed ∧ bytes = l.toBytesWith id ++ rest := by
  constructor
  · intro h
    cases hsize : listSize? bytes with
    | none =>
      simp only [read?, hsize] at h
      cases h
    | some size =>
      obtain ⟨found, others, hwell, rfl, -⟩ := exists_of_listSize? hsize
      rw [hwell.read?_append] at h
      cases h
      exact ⟨hwell, rfl⟩
  · rintro ⟨hwell, rfl⟩
    exact hwell.read?_append rest

theorem holds_of_toList {commands : List Command} (hcount : l.toList.length = l.count.toNat)
    (h : l.toList.map Record.command = commands.map .ok) : l.Holds commands where
  count := by
    have hlength := congrArg List.length h
    rw [List.length_map, List.length_map] at hlength
    rw [← hcount, hlength]
  get? := fun i => by rw [CommandList.get?, ← List.getElem?_map, h, List.getElem?_map]

theorem Holds.map_command {commands : List Command} (h : l.Holds commands) :
    l.toList.map Record.command = commands.map .ok := by
  apply List.ext_getElem?
  intro i
  rw [List.getElem?_map, List.getElem?_map]
  exact h.get? i

/-- A list that is written is read as it was. -/
theorem exists_of_encode {commands : List Command} (hlength : commands.length ≤ 65535)
    (hstorable : ∀ c ∈ commands, c.shape.isStorable = true) :
    ∃ l : CommandList, l.IsWellFormed ∧ l.Holds commands ∧ l.toBytesWith id = encode commands := by
  have hrecords : ∀ r ∈ commands.map Record.ofCommand, r.IsWellFormed := by
    intro r hr
    obtain ⟨c, hc, rfl⟩ := List.mem_map.1 hr
    exact Record.isWellFormed_ofCommand (hstorable c hc)
  have hcount : (UInt16.ofNat commands.length).toNat = (commands.map Record.ofCommand).length := by
    rw [List.length_map, UInt16.toNat_ofNat', Nat.mod_eq_of_lt (by omega)]
  obtain ⟨hwell, hlist⟩ := isWellFormed_of_records hrecords hcount
  refine ⟨_, hwell, holds_of_toList hwell.length_toList ?_, ?_⟩
  · rw [hlist, List.map_map]
    exact List.map_congr_left fun c hc => Record.command_ofCommand (hstorable c hc)
  · have hencode : Record.toBytes ∘ Record.ofCommand = Command.encode :=
      funext Record.toBytes_ofCommand
    rw [hwell.toBytesWith_id, encode, List.map_map, hencode]

/-- A list that is written again comes out without the bits that mean nothing. -/
theorem IsWellFormed.exists_commands (h : l.IsWellFormed) :
    ∃ commands, l.Holds commands ∧ encode commands = l.toBytesWith Record.cleared := by
  have hrecords : ∀ records : List Record, (∀ r ∈ records, r.IsWellFormed) →
      ∃ commands : List Command, records.map Record.command = commands.map .ok
        ∧ commands.map Command.encode = records.map fun r => r.cleared.toBytes := by
    intro records hwell
    induction records with
    | nil => exact ⟨[], rfl, rfl⟩
    | cons r records ih =>
      obtain ⟨c, hcommand, hencode⟩ := Record.exists_command (hwell r List.mem_cons_self)
      obtain ⟨commands, hcommands, hencodes⟩ := ih fun s hs => hwell s (List.mem_cons_of_mem r hs)
      refine ⟨c :: commands, ?_, ?_⟩
      · rw [List.map_cons, List.map_cons, hcommand, hcommands]
      · rw [List.map_cons, List.map_cons, hencode, hencodes]
  obtain ⟨commands, hcommands, hencodes⟩ := hrecords l.toList h.isWellFormed
  have hholds := holds_of_toList h.length_toList hcommands
  refine ⟨commands, hholds, ?_⟩
  rw [encode, toBytesWith, ← hencodes, ← hholds.count, UInt16.ofNat_toNat]

end CommandList

end Draw

end DialGraphics
