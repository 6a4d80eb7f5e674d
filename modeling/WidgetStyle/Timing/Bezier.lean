import WidgetStyle.Double

/-!
# WidgetStyle.Timing.Bezier — cubic Bézier easing

A curve from (0, 0) to (1, 1) with two control points.  To evaluate it at a progress, the
parameter at which the curve has that x coordinate is found by Newton's method, or by bisection
where the slope is too flat, and the y coordinate there is the answer.
-/

namespace WidgetStyle

open Double

/-- The number kept between 0 and 1; what is no number stays none. -/
def clampUnit (x : Float) : Float :=
  let x := if x < 0.0 then 0.0 else x
  if 1.0 < x then 1.0 else x

/-- The polynomial of one coordinate of the curve. -/
structure BezierCoordinate where
  cubic : Float
  square : Float
  linear : Float

namespace BezierCoordinate

/-- The polynomial with the given coordinates of the control points. -/
def ofControl (first second : Float) : BezierCoordinate :=
  let linear := 3.0 * first
  let square := mulAdd 3.0 (second - first) (-linear)
  ⟨1.0 - linear - square, square, linear⟩

/-- The coordinate at a parameter. -/
def sample (a : BezierCoordinate) (s : Float) : Float :=
  mulAdd (mulAdd a.cubic s a.square) s a.linear * s

/-- The derivative at a parameter. -/
def slope (a : BezierCoordinate) (s : Float) : Float :=
  mulAdd (mulAdd (3.0 * a.cubic) s (2.0 * a.square)) s a.linear

/-- Newton's method: the parameter where the coordinate is near enough to `target`, or `none` when
the slope gets flat or the steps are used up. -/
def newton? (a : BezierCoordinate) (target : Float) : Nat → Float → Option Float
  | 0, _ => none
  | steps + 1, s =>
    let error := a.sample s - target
    if error.abs < 1e-7 then some s
    else
      let derivative := a.slope s
      if derivative.abs < 1e-6 then none
      else newton? a target steps (clampUnit (s - error / derivative))

/-- Bisection between `low` and `high`, with `s` the next parameter to look at. -/
def bisect (a : BezierCoordinate) (target : Float) : Nat → Float → Float → Float → Float
  | 0, _, _, s => s
  | steps + 1, low, high, s =>
    let value := a.sample s
    if (value - target).abs < 1e-7 then s
    else if value < target then bisect a target steps s high ((s + high) / 2.0)
    else bisect a target steps low s ((low + s) / 2.0)

/-- A parameter where the coordinate is `target`. -/
def solve (a : BezierCoordinate) (target : Float) : Float :=
  (a.newton? target 8 target).getD (a.bisect target 32 0.0 1.0 target)

end BezierCoordinate

/-- The easing curve with control points `(x₁, y₁)` and `(x₂, y₂)` at a progress. -/
def cubicBezier (x₁ y₁ x₂ y₂ progress : Float) : Float :=
  let parameter := (BezierCoordinate.ofControl x₁ x₂).solve (clampUnit progress)
  (BezierCoordinate.ofControl y₁ y₂).sample parameter

end WidgetStyle
