import WidgetStyle.Decimal
import WidgetStyle.Timing.Curve
import WidgetStyle.Value.Call

/-!
# WidgetStyle.Timing.Function — timing functions

A timing function is a curve with its parameters: four coordinates for `cubicBezier`, a count and
a flag for `steps`, none for a named curve.  `parse?` reads a keyword, a call or a curve's name;
`render` writes the form that reads back.
-/

namespace WidgetStyle

open Text Value

/-- Where a stepped curve jumps. -/
inductive StepPosition where
  | start | finish
  deriving DecidableEq, Repr

/-- A curve with its parameters. -/
structure TimingFunction where
  curve : Curve := .linear
  parameters : List Float := []
  deriving Inhabited

namespace TimingFunction

/-- A curve without parameters. -/
def named (curve : Curve) : TimingFunction := ⟨curve, []⟩

/-- The Bézier curve with the given control points. -/
def bezier (x₁ y₁ x₂ y₂ : Float) : TimingFunction := ⟨.cubicBezier, [x₁, y₁, x₂, y₂]⟩

/-- A stepped curve of at least one step. -/
def steps (count : Nat) (position : StepPosition) : TimingFunction :=
  ⟨.steps, [Float.ofNat (max count 1), if position = .start then 1.0 else 0.0]⟩

/-- Equality of doubles as numbers: zeros are equal, and what is no number equals nothing. -/
def same (f g : TimingFunction) : Bool :=
  f.curve = g.curve && f.parameters.length == g.parameters.length
    && (f.parameters.zip g.parameters).all fun (x, y) => x == y

/-! ## Reading -/

/-- The timing functions that have a keyword. -/
def keywords : List (String × TimingFunction) :=
  [("linear", named .linear), ("ease", bezier 0.25 0.1 0.25 1.0),
    ("ease-in", bezier 0.42 0.0 1.0 1.0), ("ease-out", bezier 0.0 0.0 0.58 1.0),
    ("ease-in-out", bezier 0.42 0.0 0.58 1.0), ("step-start", steps 1 .start),
    ("step-end", steps 1 .finish)]

/-- Whether the number lies between 0 and 1. -/
def inUnit (x : Float) : Bool := 0.0 ≤ x && x ≤ 1.0

/-- A Bézier curve from its arguments: four numbers, the x coordinates between 0 and 1. -/
def ofBezierArguments? (arguments : List String) : Option TimingFunction :=
  match arguments.map fun text => Decimal.readFloat? (trim text.toList) with
  | [some x₁, some y₁, some x₂, some y₂] =>
    if inUnit x₁ && inUnit x₂ then some (bezier x₁ y₁ x₂ y₂) else none
  | _ => none

/-- The position that the second argument of a stepped curve names; the end when there is none. -/
def stepPosition? : Option String → Option StepPosition
  | none => some .finish
  | some text =>
    let text := trimmed text
    if text = "end" || text = "jump-end" then some .finish
    else if text = "start" || text = "jump-start" then some .start
    else none

/-- A stepped curve from its arguments: a positive count, and a position or none. -/
def ofStepArguments? (arguments : List String) : Option TimingFunction :=
  match arguments[0]? with
  | none => none
  | some text =>
    match Decimal.readNat? UInt32.size (trim text.toList), stepPosition? arguments[1]? with
    | some count, some position => if count = 0 then none else some (steps count position)
    | _, _ => none

/-- A timing function from a call. -/
def ofCall? (call : Call) : Option TimingFunction :=
  let arguments := call.arguments.map Argument.text
  if call.name = "cubic-bezier" then ofBezierArguments? arguments
  else if call.name = "steps" then ofStepArguments? arguments
  else none

/-- Reads a keyword, a call, or the name of a curve, in any letter case. -/
def parse? (text : String) : Option TimingFunction :=
  let text := lower (trimmed text)
  match keywords.lookup text with
  | some f => some f
  | none =>
    if text.toList.contains '(' then (Call.parse? text.toList).bind ofCall?
    else (Curve.ofName? text).map named

/-! ## Evaluation and printing -/

/-- The number if it is above 1, else 1. -/
def atLeastOne (x : Float) : Float := if 1.0 < x then x else 1.0

/-- The value of a stepped curve at a time between 0 and 1. -/
def easeSteps (count : Float) (jumpsAtStart : Bool) (time : Float) : Float :=
  if 1.0 ≤ time then 1.0
  else
    let step := (time * count).floor
    if jumpsAtStart then
      let value := (step + 1.0) / count
      if value < 1.0 then value else 1.0
    else step / count

/-- The eased progress. -/
def ease (f : TimingFunction) (progress : Float) : Float :=
  let time := clampUnit progress
  match f.curve, f.parameters with
  | .cubicBezier, [x₁, y₁, x₂, y₂] => cubicBezier x₁ y₁ x₂ y₂ time
  | .steps, parameters =>
    easeSteps (atLeastOne ((parameters[0]?).getD 1.0))
      ((parameters[1]?).any fun flag => 0.0 < flag) time
  | curve, _ => curve.ease time

/-- The text of a timing function: a call with its parameters when it has them, else the name of
the curve. -/
def render (f : TimingFunction) : String :=
  match f.curve, f.parameters with
  | .cubicBezier, [x₁, y₁, x₂, y₂] =>
    "cubic-bezier(" ++ Decimal.positional x₁ ++ ", " ++ Decimal.positional y₁ ++ ", "
      ++ Decimal.positional x₂ ++ ", " ++ Decimal.positional y₂ ++ ")"
  | .steps, [count, flag] =>
    "steps(" ++ Decimal.positional count ++ ", " ++ (if 0.0 < flag then "start" else "end") ++ ")"
  | curve, _ => curve.name

end TimingFunction

end WidgetStyle
