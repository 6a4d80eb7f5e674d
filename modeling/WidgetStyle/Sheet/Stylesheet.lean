import WidgetStyle.Selector.Match
import WidgetStyle.Sheet.Keyframes
import WidgetStyle.Sheet.Rule

/-!
# WidgetStyle.Sheet.Stylesheet — style sheets

A style sheet holds rules in the order of insertion and keyframe sets by name.  Every inserted rule
takes the next place of a counter, and every change raises the version, so that what was computed
from a sheet can be told to be out of date.

Rules are filed by the tag and the id that their subject asks for.  A node is then compared only
with the rules filed under its own tag and id (`candidates`); `narrow` keeps those whose
pseudo-classes hold.  Rules and keyframe sets carry markers, by which layers of a sheet are copied
and removed.
-/

namespace WidgetStyle

open Text

/-- The tag and the id under which a rule is filed. -/
structure FilingKey where
  tag? : Option String
  id? : Option String
  deriving DecidableEq, Repr

/-- Where a rule is filed. -/
def FilingKey.ofRule (rule : StyleRule) : FilingKey where
  tag? := rule.selector.subject.tag?.map lower
  id? := rule.selector.subject.id?

/-- The keys under which rules for a node can be filed. -/
def FilingKey.ofNode (t : Tree) (n : NodeId) : List FilingKey :=
  let tag := lower (t.tag n)
  let plain : List FilingKey := [⟨some tag, none⟩, ⟨none, none⟩]
  match t.idOf? n with
  | none => plain
  | some id => plain ++ [⟨some tag, some id⟩, ⟨none, some id⟩]

/-- Rules in the order of insertion with their index, keyframe sets by name, and the counters. -/
structure Stylesheet where
  rules : List StyleRule := []
  index : Assoc FilingKey (List Nat) := .empty
  keyframes : Assoc String KeyframeSet := .empty
  nextOrder : Nat := 0
  version : Nat := 0
  marker : Nat := 0
  deriving Inhabited

namespace Stylesheet

/-- The sheet without rules. -/
def empty : Stylesheet := {}

/-- Raises the version. -/
def touch (s : Stylesheet) : Stylesheet := { s with version := nextCount s.version }

/-! ## Adding -/

/-- Files a position of the rule list under a key. -/
def fileAt (index : Assoc FilingKey (List Nat)) (key : FilingKey) (position : Nat) :
    Assoc FilingKey (List Nat) :=
  index.insert key ((index.get? key).getD [] ++ [position])

/-- Appends a rule at the next place in the order.  A rule that declares nothing is dropped. -/
def append (s : Stylesheet) (rule : StyleRule) : Stylesheet :=
  if rule.isEmpty then s
  else touch
    { s with
      rules := s.rules ++ [rule.withOrder s.nextOrder]
      index := fileAt s.index (.ofRule rule) s.rules.length
      nextOrder := nextCount s.nextOrder }

/-- Whether two rules are merged: they have the same selector text and marker. -/
def sameTarget (a b : StyleRule) : Bool :=
  a.selector.text = b.selector.text && a.marker = b.marker

/-- Merges a rule into the first rule with its selector text and marker; `none` when there is
none. -/
def mergeRule? (rule : StyleRule) : List StyleRule → Option (List StyleRule)
  | [] => none
  | target :: rules =>
    if sameTarget target rule then some (target.merge rule :: rules)
    else (mergeRule? rule rules).map (target :: ·)

/-- Merges a rule into one with its selector text and marker, which keeps its place, or appends
it. -/
def add (s : Stylesheet) (rule : StyleRule) : Stylesheet :=
  match mergeRule? rule s.rules with
  | some rules => touch { s with rules }
  | none => s.append rule

/-- Stores a keyframe set in place of one of its name.  Sets without a name, or named `none`, are
left out. -/
def putKeyframes (s : Stylesheet) (set : KeyframeSet) : Stylesheet :=
  if set.name = "" || set.name = "none" then s
  else touch { s with keyframes := s.keyframes.insert set.name set }

/-- Whether one rule stands before or with another in the order. -/
def orderLe (a b : StyleRule) : Bool := a.order ≤ b.order

/-- Appends the rules of another sheet in their order, and stores its keyframe sets. -/
def combine (s other : Stylesheet) : Stylesheet :=
  other.keyframes.values.foldl putKeyframes
    ((other.rules.mergeSort orderLe).foldl append s)

/-! ## Reading -/

/-- The rules of a written rule: one for each selector of its heading, all with one block. -/
def rulesOfSource (r : Registry) (rule : Source.Rule) : List StyleRule :=
  (Selector.parseList rule.heading).map fun selector =>
    StyleRule.ofDeclarations r selector rule.declarations

/-- A sheet from its written form. -/
def ofSource (r : Registry) (source : Source.Sheet) : Stylesheet :=
  (source.keyframes.map (KeyframeSet.ofSource r)).foldl putKeyframes
    ((source.rules.flatMap (rulesOfSource r)).foldl append empty)

/-- Reads a style sheet text.  Nothing makes it fail. -/
def parse (r : Registry) (text : String) : Stylesheet := ofSource r (Source.Sheet.parse text)

/-! ## Finding the rules of a node -/

/-- The rule at a position. -/
def rule? (s : Stylesheet) (position : Nat) : Option StyleRule := s.rules[position]?

/-- Whether the rule at a position selects a node. -/
def selectsAt (s : Stylesheet) (t : Tree) (mode : MatchMode) (n : NodeId) (position : Nat) : Bool :=
  (s.rule? position).any fun rule => rule.selector.selects t mode n

/-- Ascending specificity, then ascending order; positions without a rule come first. -/
def precedes (s : Stylesheet) (a b : Nat) : Bool :=
  match s.rule? a, s.rule? b with
  | none, _ => true
  | some _, none => false
  | some a, some b => (compare a.specificity b.specificity).then (compare a.order b.order) != .gt

/-- The positions of the rules that select a node, in ascending cascade order. -/
def candidates (s : Stylesheet) (t : Tree) (mode : MatchMode) (n : NodeId) : List Nat :=
  let filed := (FilingKey.ofNode t n).flatMap fun key => (s.index.get? key).getD []
  (filed.filter (s.selectsAt t mode n)).mergeSort s.precedes

/-- The candidates whose pseudo-classes hold now.  Rules without pseudo-classes are kept without
another look. -/
def narrow (s : Stylesheet) (t : Tree) (n : NodeId) (positions : List Nat) : List Nat :=
  positions.filter fun position =>
    (s.rule? position).any fun rule =>
      !rule.selector.hasPseudoClasses || rule.selector.selects t .strict n

/-- The rules at positions. -/
def rulesAt (s : Stylesheet) (positions : List Nat) : List StyleRule := positions.filterMap s.rule?

/-- The rules that select a node, in ascending cascade order. -/
def rulesFor (s : Stylesheet) (t : Tree) (mode : MatchMode) (n : NodeId) : List StyleRule :=
  s.rulesAt (s.candidates t mode n)

/-- The rules whose selector text is the normal form of a text, in order of insertion. -/
def rulesForSelector (s : Stylesheet) (selector : String) : List StyleRule :=
  let text := Selector.normalText selector
  s.rules.filter fun rule => rule.selector.text = text

/-! ## Markers -/

/-- Marks every rule and keyframe set.  Asking for the marker that was set last changes
nothing. -/
def setMarker (s : Stylesheet) (marker : Nat) : Stylesheet :=
  if marker = s.marker then s
  else touch
    { s with
      marker
      rules := s.rules.map fun rule => { rule with marker }
      keyframes := s.keyframes.mapValues fun set => { set with marker } }

/-- Whether some rule or keyframe set has the marker. -/
def hasMarker (s : Stylesheet) (marker : Nat) : Bool :=
  s.rules.any (fun rule => rule.marker = marker)
    || s.keyframes.values.any fun set => set.marker = marker

/-- A new sheet of the rules and keyframe sets with the marker. -/
def withMarker (s : Stylesheet) (marker : Nat) : Stylesheet :=
  (s.keyframes.values.filter fun set => set.marker = marker).foldl putKeyframes
    ((s.rules.filter fun rule => rule.marker = marker).foldl append empty)

/-- The index of a list of rules. -/
def indexOf (rules : List StyleRule) : Assoc FilingKey (List Nat) :=
  rules.zipIdx.foldl (fun index (rule, position) => fileAt index (.ofRule rule) position) .empty

/-- The sheet without the rules and keyframe sets with the marker; the others keep their place in
the order. -/
def removeMarker (s : Stylesheet) (marker : Nat) : Stylesheet :=
  let rules := s.rules.filter fun rule => rule.marker != marker
  let keyframes := s.keyframes.filter fun _ set => set.marker != marker
  if rules.length = s.rules.length && keyframes.size = s.keyframes.size then s
  else touch { s with rules, keyframes, index := indexOf rules }

/-- Drops everything; the counters go on. -/
def clear (s : Stylesheet) : Stylesheet :=
  touch { s with rules := [], index := .empty, keyframes := .empty, marker := 0 }

end Stylesheet

end WidgetStyle
