import DialGraphics.Bytes.Sweep
import DialGraphics.Draw.Canvas
import DialGraphics.Proofs.Draw.StoredBytes

/-!
# Calls in order

Drawing a list that holds some commands makes the calls of one command after the other. A processor
has each command once, in order and with its place, and what it makes of it is drawn. The calls
under a sum of two offsets are those under the first one, moved by the second.
-/

namespace DialGraphics.Draw

/-! ### Offsets -/

/-- A call with all of its points moved. -/
def Call.offsetBy (offset : Point) : Call → Call
  | .setFillColor color => .setFillColor color
  | .setStrokeColor color => .setStrokeColor color
  | .setStrokeWidth width => .setStrokeWidth width
  | .fillCircle center radius => .fillCircle (center + offset) radius
  | .strokeCircle center radius => .strokeCircle (center + offset) radius
  | .fillPath points => .fillPath (points.map (· + offset))
  | .strokePath points isOpen => .strokePath (points.map (· + offset)) isOpen
  | .fillPrecisePath points => .fillPrecisePath (points.map (·.offsetBy offset))
  | .strokePrecisePath points isOpen => .strokePrecisePath (points.map (·.offsetBy offset)) isOpen

namespace Shape

theorem offsetBy_offsetBy (s : Shape) (a b : Point) :
    (s.offsetBy a).offsetBy b = s.offsetBy (a + b) := by
  cases s with
  | circle center radius => simp only [offsetBy, Point.add_assoc]
  | path isOpen points =>
    simp only [offsetBy, List.map_map, Function.comp_def, Point.add_assoc]
  | precisePath isOpen points =>
    simp only [offsetBy, List.map_map, Function.comp_def, PrecisePoint.offsetBy_offsetBy]

theorem fillCall_offsetBy (s : Shape) (b : Point) :
    (s.offsetBy b).fillCall = s.fillCall.offsetBy b := by
  cases s <;> rfl

theorem strokeCall_offsetBy (s : Shape) (b : Point) :
    (s.offsetBy b).strokeCall = s.strokeCall.offsetBy b := by
  cases s <;> rfl

end Shape

theorem Command.draw_add (c : Command) (a b : Point) :
    c.draw (a + b) = (c.draw a).map (·.offsetBy b) := by
  simp only [draw, ← Shape.offsetBy_offsetBy, Shape.fillCall_offsetBy, Shape.strokeCall_offsetBy]
  cases c.hidden with
  | true => rfl
  | false => cases c.hasFill <;> cases c.hasStroke <;> rfl

/-! ### Processors -/

section

variable {σ : Type}

/-- What a processor makes of commands, each with its place, and its state in the end. -/
def processAll (process : Nat → Command → σ → Command × σ) (position : Nat) (s : σ)
    (commands : List Command) : σ × List Command :=
  sweep (fun s c => (process c.2 c.1 s).swap) s (commands.zipIdx position)

/-- A processor that also writes down the places and the commands it is given. -/
def logged (process : Nat → Command → σ → Command × σ) (position : Nat) (c : Command)
    (s : σ × List (Nat × Command)) : Command × σ × List (Nat × Command) :=
  let (changed, next) := process position c s.1
  (changed, next, s.2 ++ [(position, c)])

variable {process : Nat → Command → σ → Command × σ}

theorem processAll_cons (position : Nat) (s : σ) (c : Command) (commands : List Command) :
    processAll process position s (c :: commands)
      = ((processAll process (position + 1) (process position c s).2 commands).1,
          (process position c s).1
            :: (processAll process (position + 1) (process position c s).2 commands).2) := by
  simp only [processAll, List.zipIdx_cons, sweep_cons, Prod.fst_swap, Prod.snd_swap]

theorem processAll_same (h : ∀ position c s, (process position c s).1 = c) (position : Nat) (s : σ)
    (commands : List Command) : (processAll process position s commands).2 = commands := by
  induction commands generalizing position s with
  | nil => rfl
  | cons c commands ih => rw [processAll_cons, h, ih]

theorem processAll_logged (position : Nat) (s : σ) (seen : List (Nat × Command))
    (commands : List Command) :
    processAll (logged process) position (s, seen) commands
      = (((processAll process position s commands).1,
            seen ++ (commands.zipIdx position).map Prod.swap),
          (processAll process position s commands).2) := by
  induction commands generalizing position s seen with
  | nil =>
    rw [List.zipIdx_nil, List.map_nil, List.append_nil]
    rfl
  | cons c commands ih =>
    simp only [processAll_cons, logged, ih, List.zipIdx_cons, List.map_cons, List.append_assoc]
    rfl

end

/-! ### Records -/

section

variable {σ : Type} {process : Nat → Command → σ → Command × σ} {records : List Record}
  {commands : List Command}

theorem Record.hidden_of_command {r : Record} {c : Command} (h : r.command = .ok c) :
    c.hidden = r.hidden := by
  obtain ⟨s, -, rfl⟩ := map_eq_ok_iff.1 h
  rfl

theorem Command.draw_hidden {c : Command} (h : c.hidden = true) (offset : Point) :
    c.draw offset = [] := if_pos h

theorem drawRecords_eq (h : records.map Record.command = commands.map .ok) (offset : Point) :
    drawRecords offset records = (commands.flatMap (·.draw offset), .ok ()) := by
  induction records generalizing commands with
  | nil =>
    cases List.map_eq_nil_iff.1 h.symm
    rfl
  | cons r records ih =>
    obtain ⟨c, commands, rfl, hc, hcommands⟩ := List.map_eq_cons_iff.1 h.symm
    rw [List.flatMap_cons, drawRecords, ih hcommands.symm, ← hc]
    split
    · rename_i hhidden
      rw [Command.draw_hidden ((Record.hidden_of_command hc.symm).trans hhidden), List.nil_append]
    · rfl

theorem drawRecordsWith_eq (h : records.map Record.command = commands.map .ok) (offset : Point)
    (position : Nat) (s : σ) :
    drawRecordsWith process offset position records s
      = ((processAll process position s commands).2.flatMap (·.draw offset), .ok (),
          (processAll process position s commands).1) := by
  induction records generalizing commands position s with
  | nil =>
    cases List.map_eq_nil_iff.1 h.symm
    rfl
  | cons r records ih =>
    obtain ⟨c, commands, rfl, hc, hcommands⟩ := List.map_eq_cons_iff.1 h.symm
    simp only [drawRecordsWith, ← hc, ih hcommands.symm, processAll_cons, List.flatMap_cons]

end

/-- A list that is read holds commands that can all be copied out. -/
theorem CommandList.exists_commands_of_read? {bytes rest : Bytes} {l : CommandList}
    (h : read? bytes = some (l, rest)) :
    ∃ commands : List Command, l.toList.map Record.command = commands.map .ok
      ∧ commands.length = l.count.toNat := by
  obtain ⟨hwell, -⟩ := read?_eq_some_iff.1 h
  obtain ⟨commands, hholds, -⟩ := hwell.exists_commands
  exact ⟨commands, hholds.map_command, hholds.count.symm⟩

end DialGraphics.Draw
