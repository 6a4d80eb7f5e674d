import WidgetStyle.Text
import WidgetStyle.Decimal

/-!
# WidgetStyle.Timing.Duration — durations

A duration is a whole number of nanoseconds below `2 ^ 64`.  It is written as a number of seconds
or milliseconds with its unit, or as a bare zero.
-/

namespace WidgetStyle

open Text

/-- A number of nanoseconds. -/
structure Duration where
  nanoseconds : Nat
  deriving DecidableEq, Repr, Inhabited

namespace Duration

/-- No time at all. -/
def zero : Duration := ⟨0⟩

/-- The distance between one and the next double. -/
def epsilon : Float := Float.ofBits 0x3CB0000000000000

/-- The first number that is too large for the nanoseconds of a duration. -/
def limit : Float := 18446744073709551616.0

/-- The nanoseconds of a number of units, of which a second has `perSecond`.  Negative, infinite
and excessive numbers are refused. -/
def ofUnits? (value perSecond : Float) : Option Duration :=
  if !value.isFinite || value < 0.0 then none
  else
    let nanoseconds := (value * 1000000000.0 / perSecond).round
    if limit < nanoseconds then none else some ⟨nanoseconds.toUInt64.toNat⟩

/-- Reads a duration such as `200ms`, `0.2s` or `0`. -/
def parse? (text : String) : Option Duration :=
  let cs := (lower (trimmed text)).toList
  match dropEnding? ['m', 's'] cs with
  | some number => (Decimal.readFloat? (trim number)).bind fun value => ofUnits? value 1000.0
  | none =>
    match dropEnding? ['s'] cs with
    | some number => (Decimal.readFloat? (trim number)).bind fun value => ofUnits? value 1.0
    | none =>
      if (Decimal.readFloat? cs).any fun value => value.abs < epsilon then some zero else none

end Duration

end WidgetStyle
