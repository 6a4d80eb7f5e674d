import WidgetStyle.Cascade.Computed
import WidgetStyle.Sheet.Stylesheet

/-!
# WidgetStyle.Engine — styles of a tree, kept until they are out of date

The engine holds one style sheet, inline styles and global variables, and computes the style of a
node when it is asked for.  Results are kept with a note of what they were computed from: the
sheet, the inline style, the global variables and the parent's result.  A result whose sheet or
parent match is out of date is computed from a new scan of the sheet; one that is only affected by
states, inline styles, variables or the parent's values goes through its candidate rules again.

Changes of the tree are reported by `invalidate`, changes of a state by `stateChanged`.  `report`
brings a node up to date and tells which changes since its last report should be animated.
-/

namespace WidgetStyle

/-- Whether transitions are reported, and the bound on nested variables. -/
structure EngineConfig where
  transitions : Bool := true
  maxDepth : Nat := defaultDepth
  deriving DecidableEq, Repr, Inhabited

/-- How much of a kept result can be used. -/
inductive Freshness where
  | fresh
  | stateChanged
  | invalid
  deriving DecidableEq, Repr, Inhabited

/-- Which contents of the sheet a result was computed from: how often the sheet was exchanged, and
its version. -/
structure SheetEdition where
  exchanges : Nat
  version : Nat
  deriving DecidableEq, Repr, Inhabited

/-- What the candidate rules of a node were found from: the sheet, the parent, and the scan that
found the parent's candidates. -/
structure ScanBasis where
  edition : SheetEdition
  parent? : Option NodeId
  parentScan : Nat
  deriving DecidableEq, Repr, Inhabited

/-- What else the values of a node were computed from: the global variables, the inline style, and
the parent's values, each as the number of its version. -/
structure ValueBasis where
  globals : Nat
  inline : Nat
  parent : Nat
  deriving DecidableEq, Repr, Inhabited

/-- The style of a node and what it was computed from.  `reported` is the style at the last
report.  Computations and scans are numbered by one counter: `generation` is the number of the
computation, `scan` that of the scan which found the candidates. -/
structure KeptStyle where
  style : ComputedStyle
  reported : ComputedStyle
  candidates : List Nat
  scanBasis : ScanBasis
  valueBasis : ValueBasis
  generation : Nat
  scan : Nat
  freshness : Freshness
  deriving Inhabited

/-- The sheet, the inline styles, the global variables, the kept results, and the counters that
tell versions apart. -/
structure Engine where
  registry : Registry
  config : EngineConfig := {}
  sheet : Stylesheet := {}
  exchanges : Nat := 0
  globals : Scope := .empty
  globalsVersion : Nat := 0
  inline : Assoc NodeId (InlineStyle × Nat) := .empty
  inlineCounter : Nat := 0
  kept : Assoc NodeId KeptStyle := .empty
  generation : Nat := 0
  deriving Inhabited

namespace Engine

/-! ## The sheet, inline styles and global variables -/

/-- Takes another sheet; everything kept is out of date. -/
def replaceSheet (e : Engine) (sheet : Stylesheet) : Engine :=
  { e with sheet, exchanges := nextCount e.exchanges }

/-- Changes the sheet in place; its version tells whether results are out of date. -/
def modifySheet (e : Engine) (f : Stylesheet → Stylesheet) : Engine := { e with sheet := f e.sheet }

/-- Attaches an inline style to a node. -/
def setInline (e : Engine) (n : NodeId) (style : InlineStyle) : Engine :=
  let version := nextCount e.inlineCounter
  { e with inline := e.inline.insert n (style, version), inlineCounter := version }

/-- Takes the inline style of a node away. -/
def clearInline (e : Engine) (n : NodeId) : Engine :=
  if e.inline.contains n then
    { e with inline := e.inline.erase n, inlineCounter := nextCount e.inlineCounter }
  else e

/-- The inline style of a node. -/
def inline? (e : Engine) (n : NodeId) : Option InlineStyle := (e.inline.get? n).map Prod.fst

/-- Declares a variable below all nodes. -/
def setGlobal (e : Engine) (name value : String) : Engine :=
  { e with
    globals := Scope.set e.globals { name, value, specificity := .zero }
    globalsVersion := nextCount e.globalsVersion }

/-- Takes a global variable away. -/
def removeGlobal (e : Engine) (name : String) : Engine :=
  if e.globals.contains name then
    { e with globals := e.globals.erase name, globalsVersion := nextCount e.globalsVersion }
  else e

/-! ## Reported changes -/

/-- Changes the kept result of a node. -/
def modifyKept (e : Engine) (n : NodeId) (f : KeptStyle → KeptStyle) : Engine :=
  match e.kept.get? n with
  | none => e
  | some kept => { e with kept := e.kept.insert n (f kept) }

/-- The node's place in the tree, its id, classes or attributes changed. -/
def invalidate (e : Engine) (n : NodeId) : Engine :=
  e.modifyKept n fun kept => { kept with freshness := .invalid }

/-- Every node is to be looked at again. -/
def invalidateAll (e : Engine) : Engine :=
  { e with kept := e.kept.mapValues fun kept => { kept with freshness := .invalid } }

/-- A state of the node changed. -/
def stateChanged (e : Engine) (n : NodeId) : Engine :=
  e.modifyKept n fun kept =>
    if kept.freshness = .fresh then { kept with freshness := .stateChanged } else kept

/-- Drops everything that is held for a node. -/
def forget (e : Engine) (n : NodeId) : Engine :=
  { e with kept := e.kept.erase n, inline := e.inline.erase n }

/-! ## Bringing a node up to date -/

/-- Which contents of the sheet are in use. -/
def edition (e : Engine) : SheetEdition := ⟨e.exchanges, e.sheet.version⟩

/-- The version of a node's inline style. -/
def inlineVersion (e : Engine) (n : NodeId) : Nat := ((e.inline.get? n).map Prod.snd).getD 0

/-- The kept result of a node's parent. -/
def keptParent? (e : Engine) (t : Tree) (n : NodeId) : Option KeptStyle :=
  (t.parent? n).bind e.kept.get?

/-- What the candidate rules of a node depend on now. -/
def scanBasis (e : Engine) (t : Tree) (n : NodeId) : ScanBasis where
  edition := e.edition
  parent? := t.parent? n
  parentScan := ((e.keptParent? t n).map KeptStyle.scan).getD 0

/-- What else the values of a node depend on now. -/
def valueBasis (e : Engine) (t : Tree) (n : NodeId) : ValueBasis where
  globals := e.globalsVersion
  inline := e.inlineVersion n
  parent := ((e.keptParent? t n).map KeptStyle.generation).getD 0

/-- How much of what is kept for a node can be used again. -/
inductive Reuse where
  | everything
  | candidates (kept : KeptStyle)
  | nothing

/-- How much of what is kept for a node can be used again, when its parent is up to date. -/
def reuse (e : Engine) (t : Tree) (n : NodeId) : Reuse :=
  match e.kept.get? n with
  | none => .nothing
  | some kept =>
    if kept.freshness = .invalid || kept.scanBasis ≠ e.scanBasis t n then .nothing
    else if kept.freshness = .stateChanged || kept.valueBasis ≠ e.valueBasis t n then
      .candidates kept
    else .everything

/-- The context in which the styles of a parent's children are computed. -/
def context (e : Engine) (parent? : Option ComputedStyle) : StyleContext :=
  ⟨e.registry, parent?, e.globals, e.config.maxDepth⟩

/-- The style of a node from candidate rules and the kept style of its parent. -/
def styleFrom (e : Engine) (t : Tree) (n : NodeId) (candidates : List Nat) : ComputedStyle :=
  let rules := e.sheet.rulesAt (e.sheet.narrow t n candidates)
  (e.context ((e.keptParent? t n).map KeptStyle.style)).compute (cascade rules (e.inline? n))

/-- Computes and keeps the style of a node from candidate rules.  The last report stays; the first
result of a node counts as reported. -/
def keep (e : Engine) (t : Tree) (n : NodeId) (candidates : List Nat) (scan : Nat) : Engine :=
  let style := e.styleFrom t n candidates
  let generation := nextCount e.generation
  let kept : KeptStyle :=
    { style
      reported := ((e.kept.get? n).map KeptStyle.reported).getD style
      candidates
      scanBasis := e.scanBasis t n
      valueBasis := e.valueBasis t n
      generation
      scan
      freshness := .fresh }
  { e with kept := e.kept.insert n kept, generation }

/-- Scans the sheet for a node and keeps the result. -/
def scan (e : Engine) (t : Tree) (n : NodeId) : Engine :=
  let generation := nextCount e.generation
  { e with generation }.keep t n (e.sheet.candidates t .loose n) generation

/-- Brings a node up to date whose parent is up to date. -/
def refreshNode (t : Tree) (e : Engine) (n : NodeId) : Engine :=
  match e.reuse t n with
  | .everything => e
  | .candidates kept => e.keep t n kept.candidates kept.scan
  | .nothing => e.scan t n

/-- Brings a node up to date, its ancestors first. -/
def refresh (e : Engine) (t : Tree) (n : NodeId) : Engine :=
  (t.pathFromRoot n).foldl (refreshNode t) e

/-- The kept style of a node, up to date or not. -/
def keptStyle? (e : Engine) (n : NodeId) : Option ComputedStyle :=
  (e.kept.get? n).map KeptStyle.style

/-! ## Queries -/

/-- The requests for what changed since the last report of a kept result. -/
def pendingRequests (e : Engine) (kept : KeptStyle) : List TransitionRequest :=
  if e.config.transitions then
    TransitionRequest.ofChanges kept.style.transitions
      (kept.style.changes kept.reported e.registry)
  else []

/-- Brings a node up to date and reports which changes since its last report are to be animated.
The first result of a node reports nothing. -/
def report (e : Engine) (t : Tree) (n : NodeId) : Engine × List TransitionRequest :=
  let e := e.refresh t n
  match e.kept.get? n with
  | none => (e, [])
  | some kept =>
    (e.modifyKept n fun kept => { kept with reported := kept.style }, e.pendingRequests kept)

/-- The animations of a kept style that have a keyframe set, with that set. -/
def animationsOf (e : Engine) (style : ComputedStyle) : List (Animation × KeyframeSet) :=
  style.animations.filterMap fun animation =>
    (e.sheet.keyframes.get? animation.name).map fun set => (animation, set)

/-- The rules of the sheet that select a node, in cascade order. -/
def rulesFor (e : Engine) (t : Tree) (mode : MatchMode) (n : NodeId) : List StyleRule :=
  e.sheet.rulesFor t mode n

/-- The winning declarations of a node, its inline style included. -/
def cascaded (e : Engine) (t : Tree) (n : NodeId) : Cascaded :=
  cascade (e.rulesFor t .strict n) (e.inline? n)

end Engine

end WidgetStyle
