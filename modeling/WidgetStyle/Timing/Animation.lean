import WidgetStyle.Entries
import WidgetStyle.Timing.Duration
import WidgetStyle.Timing.Function

/-!
# WidgetStyle.Timing.Animation — keyframe animations of a node

An animation names a keyframe set and says how it is played.  As for transitions, the shorthand
`animation` holds a list of entries and the longhands override their fields; `animation-name`
decides how many entries there are.
-/

namespace WidgetStyle

open Text Value

/-! ## Keywords -/

/-- The direction in which an animation is played. -/
inductive PlayDirection where
  | normal | reverse | alternate | alternateReverse
  deriving DecidableEq, Repr

/-- Which frames hold outside the active time. -/
inductive FillMode where
  | none | forwards | backwards | both
  deriving DecidableEq, Repr

/-- How often an animation is played. -/
inductive Iterations where
  | finite (count : Nat)
  | infinite
  deriving DecidableEq, Repr

/-- Reads a direction, in any letter case. -/
def PlayDirection.parse? (text : String) : Option PlayDirection :=
  [("normal", normal), ("reverse", reverse), ("alternate", alternate),
    ("alternate-reverse", alternateReverse)].lookup (lower (trimmed text))

/-- Reads a fill mode, in any letter case. -/
def FillMode.parse? (text : String) : Option FillMode :=
  [("none", FillMode.none), ("forwards", forwards), ("backwards", backwards),
    ("both", both)].lookup (lower (trimmed text))

/-- Reads a count or the word `infinite`. -/
def Iterations.parse? (text : String) : Option Iterations :=
  if sameLetters (trimmed text) "infinite" then some infinite
  else (Decimal.readNat? UInt32.size (trim text.toList)).map finite

/-! ## Animations -/

/-- The name of a keyframe set and how it is played. -/
structure Animation where
  name : String
  duration : Duration := .zero
  delay : Duration := .zero
  timing : TimingFunction := .named .linear
  iterations : Iterations := .finite 1
  direction : PlayDirection := .normal
  fill : FillMode := .none
  paused : Bool := false

namespace Animation

/-- Equality with timing functions compared as numbers. -/
def same (x y : Animation) : Bool :=
  x.name = y.name && x.duration = y.duration && x.delay = y.delay && x.timing.same y.timing
    && x.iterations = y.iterations && x.direction = y.direction && x.fill = y.fill
    && x.paused = y.paused

/-- Whether the name is `animation` or one of its longhands. -/
def isOwnProperty (name : String) : Bool :=
  name = "animation" || "animation-".toList.isPrefixOf name.toList

/-! ## The shorthand -/

/-- An entry of the shorthand under construction, with what has been read of it. -/
structure Draft where
  entry : Animation := { name := "" }
  hasDuration : Bool := false
  hasDelay : Bool := false
  hasName : Bool := false

/-- A word that is a keyword of one of the fields, or a timing function. -/
def Draft.keyword? (d : Draft) (word : String) : Option Draft :=
  let entry := d.entry
  let text := lower word
  if text = "paused" then some { d with entry := { entry with paused := true } }
  else if text = "running" then some { d with entry := { entry with paused := false } }
  else
    match PlayDirection.parse? text with
    | some direction => some { d with entry := { entry with direction } }
    | none =>
      match FillMode.parse? text with
      | some fill => some { d with entry := { entry with fill } }
      | none =>
        match Iterations.parse? text with
        | some iterations => some { d with entry := { entry with iterations } }
        | none => (TimingFunction.parse? text).map fun timing =>
            { d with entry := { entry with timing } }

/-- Reads one more word: a time, a keyword, or the name.  A second name is too much. -/
def Draft.step? (d : Draft) (word : List Char) : Option Draft :=
  let text := String.ofList word
  match Duration.parse? text with
  | some time =>
    if !d.hasDuration then
      some { d with entry := { d.entry with duration := time }, hasDuration := true }
    else if !d.hasDelay then
      some { d with entry := { d.entry with delay := time }, hasDelay := true }
    else some d
  | none =>
    match d.keyword? text with
    | some d => some d
    | none =>
      if d.hasName then none
      else some { d with entry := { d.entry with name := text }, hasName := true }

/-- Reads an entry of the shorthand. -/
def ofItem? (item : String) : Option Animation :=
  ((splitWords item.toList).foldlM Draft.step? {}).map Draft.entry

/-- The entries of the shorthand; items that are no entries are left out. -/
def ofShorthand (value : String) : List Animation := (listItems value).filterMap ofItem?

/-! ## The longhands -/

/-- The entries that a list of names asks for, taken in turn from those there are. -/
def renameEach (entries : List Animation) (names : List String) : List Animation :=
  names.zipIdx.map fun (name, i) => { (repeating? entries i).getD { name } with name }

/-- The longhands that override a field, with what they do to an entry. -/
def longhands : List (String × (Animation → String → Animation)) :=
  [("animation-duration", fun x text =>
      { x with duration := (Duration.parse? text).getD x.duration }),
    ("animation-delay", fun x text => { x with delay := (Duration.parse? text).getD x.delay }),
    ("animation-timing-function", fun x text =>
      { x with timing := (TimingFunction.parse? text).getD x.timing }),
    ("animation-iteration-count", fun x text =>
      { x with iterations := (Iterations.parse? text).getD x.iterations }),
    ("animation-direction", fun x text =>
      { x with direction := (PlayDirection.parse? text).getD x.direction }),
    ("animation-fill-mode", fun x text => { x with fill := (FillMode.parse? text).getD x.fill }),
    ("animation-play-state", fun x text =>
      { x with paused := sameLetters (trimmed text) "paused" })]

/-- Applies one declaration to the entries; names that are no longhand change nothing. -/
def applyLonghand (entries : List Animation) (declaration : String × String) : List Animation :=
  match longhands.lookup declaration.1 with
  | some change => overrideEach change (listItems declaration.2) entries
  | none => entries

/-- Whether the entry stands for no animation. -/
def isNone (x : Animation) : Bool := x.name = "" || sameLetters x.name "none"

/-- The animations of a node from its declarations, one for each keyframe set. -/
def ofDeclarations (declarations : List (String × String)) : List Animation :=
  let entries := ((lastValue? declarations "animation").map ofShorthand).getD []
  let entries := match lastValue? declarations "animation-name" with
    | some value => renameEach entries (listItems value)
    | none => entries
  let entries := declarations.foldl applyLonghand entries
  collectByName name (entries.filter fun x => !x.isNone)

/-- The animation of a keyframe set's name. -/
def get? (animations : List Animation) (name : String) : Option Animation :=
  animations.find? fun x => x.name = name

end Animation

end WidgetStyle
