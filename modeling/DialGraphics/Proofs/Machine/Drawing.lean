import DialGraphics.Machine.Drawing
import DialGraphics.Proofs.Draw.Drawing

/-!
# Drawing as its calls in order

A list has at most 65535 records, so that their places fit a word. If memory suffices, drawing with
and without a processor comes to an end and makes the calls of the commands in order; hidden records
make no difference, though they are passed over early in one case only.
-/

namespace DialGraphics.Machine

open Draw

/-- A buffer can be had for the points of each record that needs one. -/
def HasRoom (room : Nat → Bool) (records : List Record) : Prop :=
  ∀ r ∈ records, r.kind ≠ .circle → room (r.count.toNat * pointSize) = true

/-- The processor that changes nothing. -/
def unchanged {σ : Type} (_position : Nat) (c : Command) (s : σ) : Command × σ := (c, s)

section

variable {σ : Type} {room : Nat → Bool} {r : Record} {c : Command} {records : List Record}
  {commands : List Command}

theorem copyOut_eq (hroom : r.kind ≠ .circle → room (r.count.toNat * pointSize) = true) :
    copyOut room r = r.command := by
  refine if_neg ?_
  rintro ⟨hkind, hfull⟩
  rw [hroom hkind] at hfull
  cases hfull

/-- A record is drawn as if there were always a processor. -/
theorem drawRecord_eq (hroom : r.kind ≠ .circle → room (r.count.toNat * pointSize) = true)
    (hc : r.command = .ok c) (processor : Option (Nat → Command → σ → Command × σ))
    (offset : Point) (index : Nat) (s : σ) :
    drawRecord room processor offset index r s
      = .ok ((processor.getD unchanged index c s).1.draw offset,
          (processor.getD unchanged index c s).2) := by
  rw [drawRecord, copyOut_eq hroom, hc]
  cases processor with
  | none =>
    cases hhidden : r.hidden with
    | false => rfl
    | true =>
      have hnothing := Command.draw_hidden ((Record.hidden_of_command hc).trans hhidden) offset
      simp only [Option.isNone_none, and_self, if_true, Option.getD_none, unchanged, hnothing]
  | some process => rfl

theorem drawRecords_eq (hroom : HasRoom room records)
    (h : records.map Record.command = commands.map .ok)
    (processor : Option (Nat → Command → σ → Command × σ)) (offset : Point) {i : Nat}
    (hplaces : i + records.length ≤ 65535) (s : σ) :
    drawRecords room processor offset i records s
      = .ok ((processAll (processor.getD unchanged) (i + 1) s commands).2.flatMap (·.draw offset),
          .ok (), (processAll (processor.getD unchanged) (i + 1) s commands).1) := by
  induction records generalizing commands i s with
  | nil =>
    cases List.map_eq_nil_iff.1 h.symm
    rfl
  | cons r records ih =>
    obtain ⟨c, commands, rfl, hc, hcommands⟩ := List.map_eq_cons_iff.1 h.symm
    obtain ⟨hr, hrecords⟩ := List.forall_mem_cons.1 hroom
    rw [List.length_cons] at hplaces
    have hindex : add 16 (i % 2 ^ 16) 1 = .ok (i + 1) := by
      rw [Nat.mod_eq_of_lt (by omega), add_eq (by omega)]
    -- the records behind this one are drawn with whatever state the processor leaves
    have hrest := ih hrecords hcommands.symm (i := i + 1) (by omega)
    rw [drawRecords, hindex, ok_bind, drawRecord_eq hr hc.symm]
    simp only [hrest, ok_bind, processAll_cons, List.flatMap_cons]

end

/-- Drawing a list that was read, with a processor or without, gives no error as long as memory
suffices. The processor has each command once, in order and with its 1-based place, and the calls
are those of the commands that it makes. Without a processor, they are those of the commands as they
are stored. Under a sum of offsets, the calls of the first offset are moved by the second. -/
theorem draws_in_order {bytes rest : Bytes} {l : CommandList}
    (hread : CommandList.read? bytes = some (l, rest)) {room : Nat → Bool}
    (hroom : HasRoom room l.toList) :
    ∃ commands : List Command, l.toList.map Record.command = commands.map .ok
      ∧ commands.length = l.count.toNat
      ∧ (∀ (σ : Type) (process : Nat → Command → σ → Command × σ) (s : σ) (offset : Point),
          drawWith room l offset process s = .ok (l.drawWith offset process s)
            ∧ l.drawWith offset process s
              = ((processAll process 1 s commands).2.flatMap (·.draw offset), .ok (),
                  (processAll process 1 s commands).1)
            ∧ l.drawWith offset (logged process) (s, [])
              = ((processAll process 1 s commands).2.flatMap (·.draw offset), .ok (),
                  (processAll process 1 s commands).1, (commands.zipIdx 1).map Prod.swap)
            ∧ ((∀ position c s, (process position c s).1 = c) →
              ((l.drawWith offset process s).1, (l.drawWith offset process s).2.1)
                = l.draw offset))
      ∧ ∀ a b, draw room l a = .ok (l.draw a)
          ∧ l.draw a = (commands.flatMap (·.draw a), .ok ())
          ∧ (l.draw (a + b)).1 = (l.draw a).1.map (·.offsetBy b) := by
  obtain ⟨commands, hcommands, hlength⟩ := CommandList.exists_commands_of_read? hread
  have hplaces : 0 + l.toList.length ≤ 65535 := by
    have hlist := congrArg List.length hcommands
    rw [List.length_map, List.length_map, hlength] at hlist
    have := l.count.toNat_lt
    omega
  have hdraw : ∀ offset, l.draw offset = (commands.flatMap (·.draw offset), .ok ()) :=
    Draw.drawRecords_eq hcommands
  have hdrawWith : ∀ {σ : Type} (process : Nat → Command → σ → Command × σ) s offset,
      l.drawWith offset process s = ((processAll process 1 s commands).2.flatMap (·.draw offset),
        .ok (), (processAll process 1 s commands).1) :=
    fun _ s offset => drawRecordsWith_eq hcommands offset 1 s
  refine ⟨commands, hcommands, hlength, fun σ process s offset => ⟨?_, hdrawWith process s offset,
    ?_, fun hsame => ?_⟩, fun a b => ⟨?_, hdraw a, ?_⟩⟩
  · rw [drawWith, drawRecords_eq hroom hcommands _ _ hplaces, hdrawWith]
    rfl
  · rw [hdrawWith, processAll_logged, List.nil_append]
  · rw [hdrawWith, hdraw, processAll_same hsame]
  · rw [draw, drawRecords_eq hroom hcommands _ _ hplaces, ok_bind, hdraw, Option.getD_none,
      processAll_same fun _ _ _ => rfl]
  · rw [hdraw, hdraw, List.map_flatMap]
    exact congrArg (commands.flatMap ·) (funext fun c => c.draw_add a b)

/-- A circle, a hidden path, and a path through eighths of pixels. -/
def threeShapes : Bytes :=
  [3, 0,
    2, 0, 192, 1, 255, 4, 0, 1, 0, 10, 0, 20, 0,
    1, 1, 255, 2, 0, 1, 0, 2, 0, 0, 0, 0, 0, 5, 0, 5, 0,
    3, 0, 192, 1, 0, 0, 0, 2, 0, 4, 0, 4, 0, 12, 0, 0, 0]

/-- A processor that shows every command and sums up the places; and an offset past the last
coordinate. -/
theorem draws_in_order_threeShapes :
    ∃ l, CommandList.read? threeShapes = some (l, [])
      ∧ HasRoom (fun n => n < allocationLimit) l.toList
      ∧ (∃ calls, drawWith (fun n => n < allocationLimit) l ⟨1, 2⟩
          (fun position c (sum : Nat) => ({ c with hidden := false }, sum + position)) 0
        = .ok (calls, .ok (), 6) ∧ Call.strokePath [⟨1, 2⟩, ⟨6, 7⟩] true ∈ calls)
      ∧ (l.draw (⟨32767, 0⟩ + ⟨1, 2⟩)).1 = (l.draw ⟨32767, 0⟩).1.map (·.offsetBy ⟨1, 2⟩) := by
  have hread : CommandList.read? threeShapes = some (.ofChecked threeShapes, []) := by decide
  have hroom : HasRoom (fun n => n < allocationLimit)
      (CommandList.ofChecked threeShapes).toList := by
    unfold HasRoom
    decide
  obtain ⟨commands, -, -, hprocessed, hplain⟩ := draws_in_order hread hroom
  refine ⟨_, hread, hroom, ⟨_, (hprocessed Nat _ 0 ⟨1, 2⟩).1, ?_⟩, (hplain _ _).2.2⟩
  decide

end DialGraphics.Machine
