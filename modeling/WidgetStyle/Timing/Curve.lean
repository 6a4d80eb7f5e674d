import WidgetStyle.Text
import WidgetStyle.Timing.Bezier

/-!
# WidgetStyle.Timing.Curve — named easing curves

A named curve is a family and a direction: it may ease in, out, or both.  Easing out is easing in
run backwards; easing both ways is easing in over the first half and its reflection over the
second.  Two further curves, `cubicBezier` and `steps`, take parameters and are evaluated where
these are kept.
-/

namespace WidgetStyle

open Double

/-- The families of easing curves. -/
inductive CurveFamily where
  | quadratic | cubic | quartic | quintic | sine | exponential | circular | back | bounce | elastic
  deriving DecidableEq, Repr

/-- Which end of the curve is eased. -/
inductive EaseDirection where
  | easeIn | easeOut | easeInOut
  deriving DecidableEq, Repr

/-- The easing curves. -/
inductive Curve where
  | linear
  | eased (family : CurveFamily) (direction : EaseDirection)
  | cubicBezier
  | steps
  deriving DecidableEq, Repr, Inhabited

/-! ## Names -/

/-- The name of a family. -/
def CurveFamily.name : CurveFamily → String
  | quadratic => "Quadratic"
  | cubic => "Cubic"
  | quartic => "Quartic"
  | quintic => "Quintic"
  | sine => "Sine"
  | exponential => "Exponential"
  | circular => "Circular"
  | back => "Back"
  | bounce => "Bounce"
  | elastic => "Elastic"

/-- The ending that a direction gives to a name. -/
def EaseDirection.name : EaseDirection → String
  | easeIn => "In"
  | easeOut => "Out"
  | easeInOut => "InOut"

/-- The name of a curve. -/
def Curve.name : Curve → String
  | linear => "Linear"
  | eased family direction => family.name ++ direction.name
  | cubicBezier => "CubicBezier"
  | steps => "Steps"

/-- The family of a written name; some have a short name too. -/
def CurveFamily.ofName? (s : String) : Option CurveFamily :=
  if s = "quad" || s = "quadratic" then some quadratic
  else if s = "cubic" then some cubic
  else if s = "quart" || s = "quartic" then some quartic
  else if s = "quint" || s = "quintic" then some quintic
  else if s = "sine" then some sine
  else if s = "expo" || s = "exponential" then some exponential
  else if s = "circ" || s = "circular" then some circular
  else if s = "back" then some back
  else if s = "bounce" then some bounce
  else if s = "elastic" then some elastic
  else none

/-- The written ending of a direction. -/
def EaseDirection.ending : EaseDirection → List Char
  | easeIn => ['i', 'n']
  | easeOut => ['o', 'u', 't']
  | easeInOut => ['i', 'n', 'o', 'u', 't']

/-- Takes a direction off the end of a name, the longest ending first; something has to be left
for the family. -/
def EaseDirection.split? (cs : List Char) : Option (List Char × EaseDirection) :=
  [easeInOut, easeIn, easeOut].findSome? fun direction =>
    match Text.dropEnding? direction.ending cs with
    | some (c :: family) => some (c :: family, direction)
    | _ => none

/-- The curve of a written name, in any letter case and with or without hyphens and
underscores. -/
def Curve.ofName? (s : String) : Option Curve :=
  let compact := (s.toList.filter fun c => c != '-' && c != '_').map Char.toLower
  match EaseDirection.split? compact with
  | some (family, direction) =>
    (CurveFamily.ofName? (String.ofList family)).map fun family => eased family direction
  | none => if String.ofList compact = "linear" then some linear else none

/-! ## Evaluation -/

/-- The ratio of a circle's circumference to its diameter. -/
def circleRatio : Float := 3.141592653589793

/-- The second power. -/
def squared (x : Float) : Float := x * x

/-- The third power. -/
def cubed (x : Float) : Float := x * squared x

/-- The fourth power. -/
def fourthPower (x : Float) : Float := squared (squared x)

/-- The fifth power. -/
def fifthPower (x : Float) : Float := x * fourthPower x

/-- How far the back curves swing beyond their ends. -/
def overshootOfBack : Float := 1.70158

/-- A quadratic and a cubic pull against each other. -/
def backCurve (overshoot time : Float) : Float :=
  mulAdd (overshoot + 1.0) (cubed time) (-overshoot * squared time)

/-- A power of two that starts at exactly zero. -/
def exponentialCurve (time : Float) : Float :=
  if time ≤ 0.0 then 0.0 else Float.pow 2.0 (mulAdd 10.0 time (-10.0))

/-- A quarter of a circle. -/
def circularCurve (time : Float) : Float := 1.0 - (1.0 - squared time).sqrt

/-- Four parabolas, each bounce lower than the one before. -/
def bounceCurve (time : Float) : Float :=
  if time < 1.0 / 2.75 then 7.5625 * time * time
  else if time < 2.0 / 2.75 then mulAdd 7.5625 (squared (time - 1.5 / 2.75)) 0.75
  else if time < 2.5 / 2.75 then mulAdd 7.5625 (squared (time - 2.25 / 2.75)) 0.9375
  else mulAdd 7.5625 (squared (time - 2.625 / 2.75)) 0.984375

/-- A sine wave under a power of two. -/
def elasticCurve (time : Float) : Float :=
  if time ≤ 0.0 then 0.0
  else if 1.0 ≤ time then 1.0
  else
    let wave := (mulAdd time 10.0 (-10.75) * (2.0 * circleRatio / 3.0)).sin
    (-Float.pow 2.0 (mulAdd 10.0 time (-10.0))) * wave

/-- Eases in over the first half and in reflection over the second. -/
def inAndOut (curve : Float → Float) (time : Float) : Float :=
  if time < 0.5 then curve (time * 2.0) / 2.0
  else 1.0 - curve ((1.0 - time) * 2.0) / 2.0

/-- The curve of a family that eases in. -/
def CurveFamily.easeIn : CurveFamily → Float → Float
  | quadratic, time => squared time
  | cubic, time => cubed time
  | quartic, time => fourthPower time
  | quintic, time => fifthPower time
  | sine, time => 1.0 - (time * circleRatio / 2.0).cos
  | exponential, time => exponentialCurve time
  | circular, time => circularCurve time
  | back, time => backCurve overshootOfBack time
  | bounce, time => 1.0 - bounceCurve (1.0 - time)
  | elastic, time => elasticCurve time

/-- The curve of a family that eases out. -/
def CurveFamily.easeOut : CurveFamily → Float → Float
  | sine, time => (time * circleRatio / 2.0).sin
  | circular, time => (1.0 - squared (time - 1.0)).sqrt
  | bounce, time => bounceCurve time
  | family, time => 1.0 - family.easeIn (1.0 - time)

/-- The curve of a family that eases in and out.  The back curves swing further here. -/
def CurveFamily.easeInOut : CurveFamily → Float → Float
  | sine, time => -((circleRatio * time).cos - 1.0) / 2.0
  | back, time => inAndOut (backCurve (overshootOfBack * 1.525)) time
  | family, time => inAndOut family.easeIn time

/-- The value of a curve at a progress between 0 and 1.  The curves with parameters are linear
without them. -/
def Curve.ease (curve : Curve) (progress : Float) : Float :=
  let time := clampUnit progress
  match curve with
  | linear | cubicBezier | steps => time
  | eased family .easeIn => family.easeIn time
  | eased family .easeOut => family.easeOut time
  | eased family .easeInOut => family.easeInOut time

end WidgetStyle
