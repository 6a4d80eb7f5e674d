import WidgetStyle.Entries
import WidgetStyle.Timing.Duration
import WidgetStyle.Timing.Function

/-!
# WidgetStyle.Timing.Transition — how property changes are animated

A transition says how changes of one property, or of `all`, are animated.  A node's transitions
come from its winning declarations: the shorthand `transition` holds a list of entries, and each
longhand list overrides one field of every entry, repeating itself as often as needed.
-/

namespace WidgetStyle

open Text Value

/-- How changes of one property are animated. -/
structure Transition where
  property : String
  timing : TimingFunction := .named .linear
  delay : Duration := .zero
  duration : Duration := .zero
  deriving Inhabited

namespace Transition

/-- The name that stands for every property. -/
def everyProperty : String := "all"

/-- Whether there is nothing to animate. -/
def isInstant (x : Transition) : Bool := x.duration = .zero && x.delay = .zero

/-- Equality with timing functions compared as numbers. -/
def same (x y : Transition) : Bool :=
  x.property = y.property && x.timing.same y.timing && x.delay = y.delay
    && x.duration = y.duration

/-- Whether the name is `transition` or one of its longhands. -/
def isOwnProperty (name : String) : Bool :=
  name = "transition" || "transition-".toList.isPrefixOf name.toList

end Transition

/-! ## Transitions of a node -/

namespace Transition

/-- An entry of the shorthand under construction, with what has been read of it. -/
structure Draft where
  entry : Transition := { property := everyProperty }
  hasDuration : Bool := false
  hasDelay : Bool := false
  hasProperty : Bool := false

/-- Reads one more word: a time, a timing function, or the property.  A second property is too
much. -/
def Draft.step? (d : Draft) (word : List Char) : Option Draft :=
  let text := String.ofList word
  match Duration.parse? text with
  | some time =>
    if !d.hasDuration then
      some { d with entry := { d.entry with duration := time }, hasDuration := true }
    else if !d.hasDelay then
      some { d with entry := { d.entry with delay := time }, hasDelay := true }
    else some d
  | none =>
    match TimingFunction.parse? text with
    | some timing => some { d with entry := { d.entry with timing } }
    | none =>
      if d.hasProperty then none
      else some { d with entry := { d.entry with property := lower text }, hasProperty := true }

/-- Reads an entry of the shorthand. -/
def ofItem? (item : String) : Option Transition :=
  ((splitWords item.toList).foldlM Draft.step? {}).map Draft.entry

/-- The entries of the shorthand; items that are no entries are left out. -/
def ofShorthand (value : String) : List Transition := (listItems value).filterMap ofItem?

/-- The entries that a list of properties asks for, taken in turn from those there are. -/
def renameEach (entries : List Transition) (properties : List String) : List Transition :=
  properties.zipIdx.map fun (property, i) =>
    { (repeating? entries i).getD { property } with property := lower property }

/-- Replaces the duration by a written one. -/
def withDuration (x : Transition) (text : String) : Transition :=
  { x with duration := (Duration.parse? text).getD x.duration }

/-- Replaces the delay by a written one. -/
def withDelay (x : Transition) (text : String) : Transition :=
  { x with delay := (Duration.parse? text).getD x.delay }

/-- Replaces the timing function by a written one. -/
def withTiming (x : Transition) (text : String) : Transition :=
  { x with timing := (TimingFunction.parse? text).getD x.timing }

/-- Whether the entry stands for no transition. -/
def isNone (x : Transition) : Bool := x.property = "none" || x.property = ""

/-- Overrides one field of the entries by a longhand, when it is declared. -/
def applyLonghand (declarations : List (String × String)) (name : String)
    (change : Transition → String → Transition) (entries : List Transition) : List Transition :=
  match lastValue? declarations name with
  | some value => overrideEach change (listItems value) entries
  | none => entries

/-- The transitions of a node from its declarations, one for each property. -/
def ofDeclarations (declarations : List (String × String)) : List Transition :=
  let entries := ((lastValue? declarations "transition").map ofShorthand).getD []
  let entries := match lastValue? declarations "transition-property" with
    | some value => renameEach entries (listItems value)
    | none => entries
  let entries := applyLonghand declarations "transition-duration" withDuration entries
  let entries := applyLonghand declarations "transition-delay" withDelay entries
  let entries := applyLonghand declarations "transition-timing-function" withTiming entries
  collectByName property (entries.filter fun x => !x.isNone)

/-- The transition of a property itself. -/
def get? (transitions : List Transition) (property : String) : Option Transition :=
  transitions.find? fun x => x.property = property

/-- The transition of a property, or that of every property. -/
def lookup? (transitions : List Transition) (property : String) : Option Transition :=
  (get? transitions property).or (get? transitions everyProperty)

end Transition

end WidgetStyle
