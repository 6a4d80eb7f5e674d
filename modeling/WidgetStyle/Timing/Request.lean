import WidgetStyle.Timing.Animation
import WidgetStyle.Timing.Transition

/-!
# WidgetStyle.Timing.Request — requests to animate a change

A request is made for every changed property that has a transition which takes time.
-/

namespace WidgetStyle

/-- A property whose value changed. -/
structure ValueChange where
  property : String
  oldValue : String
  newValue : String
  deriving DecidableEq, Repr

/-- An animation from an old to a new value that should be run. -/
structure TransitionRequest where
  property : String
  oldValue : String
  newValue : String
  delay : Duration
  duration : Duration
  timing : TimingFunction

/-- The request that a change gives rise to: its values differ, it is no change of the transition
or animation properties themselves, and its transition takes time. -/
def ValueChange.request? (transitions : List Transition) (change : ValueChange) :
    Option TransitionRequest :=
  if change.oldValue = change.newValue || Transition.isOwnProperty change.property
      || Animation.isOwnProperty change.property then none
  else
    match Transition.lookup? transitions change.property with
    | none => none
    | some x =>
      if x.isInstant then none
      else some
        { property := change.property, oldValue := change.oldValue, newValue := change.newValue,
          delay := x.delay, duration := x.duration, timing := x.timing }

/-- The requests of a list of changes, in order. -/
def TransitionRequest.ofChanges (transitions : List Transition) (changes : List ValueChange) :
    List TransitionRequest :=
  changes.filterMap (ValueChange.request? transitions)

end WidgetStyle
