import DialGraphics.Draw.Frame

/-!
# Drawing

What a command asks of a drawing target, call by call: colours first, then the fill, then the
stroke. A hidden command asks for nothing, and a transparent fill or stroke is left out, as is a
stroke of width zero. Drawing a list is drawing its commands in order. A processor may change a copy
of each command first, hidden ones included.
-/

namespace DialGraphics.Draw

/-- A call to a drawing target. -/
inductive Call
  | setFillColor (color : Color)
  | setStrokeColor (color : Color)
  | setStrokeWidth (width : UInt8)
  | fillCircle (center : Point) (radius : UInt16)
  | strokeCircle (center : Point) (radius : UInt16)
  | fillPath (points : List Point)
  | strokePath (points : List Point) (isOpen : Bool)
  | fillPrecisePath (points : List PrecisePoint)
  | strokePrecisePath (points : List PrecisePoint) (isOpen : Bool)
  deriving DecidableEq, Repr

namespace Shape

def offsetBy (offset : Point) : Shape → Shape
  | .circle center radius => .circle (center + offset) radius
  | .path isOpen points => .path isOpen (points.map (· + offset))
  | .precisePath isOpen points => .precisePath isOpen (points.map (·.offsetBy offset))

def fillCall : Shape → Call
  | .circle center radius => .fillCircle center radius
  | .path _ points => .fillPath points
  | .precisePath _ points => .fillPrecisePath points

def strokeCall : Shape → Call
  | .circle center radius => .strokeCircle center radius
  | .path isOpen points => .strokePath points isOpen
  | .precisePath isOpen points => .strokePrecisePath points isOpen

end Shape

def Command.hasFill (c : Command) : Bool := !c.fillColor.isTransparent

def Command.hasStroke (c : Command) : Bool := !c.strokeColor.isTransparent && 0 < c.strokeWidth

def Command.draw (c : Command) (offset : Point) : List Call :=
  if c.hidden then []
  else
    let shape := c.shape.offsetBy offset
    (if c.hasFill then [Call.setFillColor c.fillColor] else [])
      ++ (if c.hasStroke then
            [Call.setStrokeColor c.strokeColor, Call.setStrokeWidth c.strokeWidth]
          else [])
      ++ (if c.hasFill then [shape.fillCall] else [])
      ++ (if c.hasStroke then [shape.strokeCall] else [])

/-- Draws records in order; the first one that cannot be read as a command ends it. A hidden record
is passed over unread. -/
def drawRecords (offset : Point) : List Record → List Call × Except DecodeError Unit
  | [] => ([], .ok ())
  | r :: rs =>
    if r.hidden then drawRecords offset rs
    else
      match r.command with
      | .error e => ([], .error e)
      | .ok c =>
        let (calls, result) := drawRecords offset rs
        (c.draw offset ++ calls, result)

/-- Draws records in order, each after `process` had its 1-based position and a copy of it to
change. The processor has a state of its own. -/
def drawRecordsWith {σ : Type} (process : Nat → Command → σ → Command × σ) (offset : Point)
    (position : Nat) : List Record → σ → List Call × Except DecodeError Unit × σ
  | [], s => ([], .ok (), s)
  | r :: rs, s =>
    match r.command with
    | .error e => ([], .error e, s)
    | .ok c =>
      let (c, s) := process position c s
      let (calls, result, s) := drawRecordsWith process offset (position + 1) rs s
      (c.draw offset ++ calls, result, s)

namespace CommandList

def draw (l : CommandList) (offset : Point) : List Call × Except DecodeError Unit :=
  drawRecords offset l.toList

def drawWith {σ : Type} (l : CommandList) (offset : Point)
    (process : Nat → Command → σ → Command × σ) (s : σ) : List Call × Except DecodeError Unit × σ :=
  drawRecordsWith process offset 1 l.toList s

end CommandList

/-! ### Rules -/

/-- A processor that is written down: the fields that it gives to the command at one position, or to
every command. -/
structure Rule where
  position : Option Nat := none
  hidden : Option Bool := none
  strokeColor : Option Color := none
  strokeWidth : Option UInt8 := none
  fillColor : Option Color := none
  shape : Option Shape := none
  deriving DecidableEq, Repr

/-- Whether a rule is for the command at a position. Without positions every rule is for all. -/
def Rule.appliesAt (r : Rule) (position : Option Nat) : Bool :=
  match r.position, position with
  | some p, some q => p == q
  | _, _ => true

def Rule.apply (r : Rule) (c : Command) : Command where
  hidden := r.hidden.getD c.hidden
  strokeColor := r.strokeColor.getD c.strokeColor
  strokeWidth := r.strokeWidth.getD c.strokeWidth
  fillColor := r.fillColor.getD c.fillColor
  shape := r.shape.getD c.shape

def Rule.applyAll (rules : List Rule) (position : Option Nat) (c : Command) : Command :=
  rules.foldl (fun c r => if r.appliesAt position then r.apply c else c) c

def CommandList.drawUnder (l : CommandList) (offset : Point) (rules : List Rule)
    (positioned : Bool) : List Call × Except DecodeError Unit × List (Option Nat × Command) :=
  let known := fun (position : Nat) => if positioned then some position else none
  l.drawWith offset (fun position c seen =>
    (Rule.applyAll rules (known position) c, seen ++ [(known position, c)])) []

end DialGraphics.Draw
