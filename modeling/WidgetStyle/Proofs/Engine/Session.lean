import WidgetStyle.Engine
import WidgetStyle.Proofs.Sheet.Operations
import WidgetStyle.Proofs.Tree.Edits

/-!
# WidgetStyle.Proofs.Engine.Session — an engine and its host

The style of a node can be computed without anything being kept: first that of the root, then of
each node on the way down (`Engine.plainStyle`).  In a forest this is the recursion that
`plainStyle_eq` writes out.

A `Session` is an engine together with the tree that its host changes and the notices that the host
still owes.  An `Action` is what can happen next.  The host does its part (`Session.Follows`) if it
never moves a node below itself, asks about nodes of the tree only, and asks nothing before it has
given all notices it owes.  Runs are followed as long as no counter of the engine has reached its
limit (`Session.Unsaturated`).
-/

namespace WidgetStyle

namespace Engine

/-! ## Styles without anything kept -/

/-- The style of a node below a parent of the given style. -/
def styleBelow (e : Engine) (t : Tree) (n : NodeId) (parent? : Option ComputedStyle) :
    ComputedStyle :=
  (e.context parent?).compute (cascade (e.rulesFor t .strict n) (e.inline? n))

/-- The style of a node, computed from the root downwards. -/
def plainStyle (e : Engine) (t : Tree) (n : NodeId) : ComputedStyle :=
  e.styleBelow t n ((t.ancestors n).foldr (fun m above => some (e.styleBelow t m above)) none)

theorem plainStyle_of_root (e : Engine) {t : Tree} {n : NodeId} (hp : t.parent? n = none) :
    e.plainStyle t n = e.styleBelow t n none := by
  rw [plainStyle, Tree.ancestors_of_root hp, List.foldr_nil]

theorem plainStyle_of_parent (e : Engine) {t : Tree} (h : t.IsForest) {n p : NodeId}
    (hp : t.parent? n = some p) :
    e.plainStyle t n = e.styleBelow t n (some (e.plainStyle t p)) := by
  rw [plainStyle, h.ancestors_of_parent hp, List.foldr_cons]
  rfl

/-- The style of a node is computed from that of its parent, the rules that select the node, its
inline style, and the global variables. -/
theorem plainStyle_eq (e : Engine) {t : Tree} (h : t.IsForest) (n : NodeId) :
    e.plainStyle t n =
      (e.context ((t.parent? n).map (e.plainStyle t))).compute
        (cascade (e.rulesFor t .strict n) (e.inline? n)) := by
  cases hp : t.parent? n with
  | none => exact e.plainStyle_of_root hp
  | some p => exact e.plainStyle_of_parent h hp

/-- The engine with nothing kept. -/
def bare (e : Engine) : Engine := { e with kept := .empty, generation := 0 }

theorem bare_eq_bare_iff {e e' : Engine} :
    e'.bare = e.bare ↔
      e'.registry = e.registry ∧ e'.config = e.config ∧ e'.sheet = e.sheet ∧
        e'.exchanges = e.exchanges ∧ e'.globals = e.globals ∧
        e'.globalsVersion = e.globalsVersion ∧ e'.inline = e.inline ∧
        e'.inlineCounter = e.inlineCounter := by
  simp [bare]

/-- Nothing kept goes into a plain style. -/
theorem plainStyle_bare (e : Engine) : e.bare.plainStyle = e.plainStyle := rfl

theorem plainStyle_congr {e e' : Engine} (h : e'.bare = e.bare) : e'.plainStyle = e.plainStyle := by
  rw [← plainStyle_bare e', h, plainStyle_bare]

end Engine

/-! ## Sessions -/

/-- The node that a notice is about. -/
def Notice.node : Notice → NodeId
  | .changed n | .stateChanged n => n

/-- An engine, the tree that its host asks about, and the notices the host owes. -/
structure Session where
  engine : Engine
  tree : Tree
  due : List Notice := []

/-- What a host can do next. -/
inductive Action where
  | replaceSheet (sheet : Stylesheet)
  | editSheet (edit : Stylesheet.Edit)
  | setInline (n : NodeId) (style : InlineStyle)
  | clearInline (n : NodeId)
  | setGlobal (name value : String)
  | removeGlobal (name : String)
  | invalidate (n : NodeId)
  | stateChanged (n : NodeId)
  | invalidateAll
  | forget (n : NodeId)
  | edit (edit : Tree.Edit)
  | computedStyle (n : NodeId)
  | animations (n : NodeId)
  | report (n : NodeId)

/-- The node that an action asks about. -/
def Action.queried? : Action → Option NodeId
  | .computedStyle n | .animations n | .report n => some n
  | _ => none

namespace Session

/-- A new engine beside a tree. -/
def start (registry : Registry) (config : EngineConfig) (t : Tree) : Session where
  engine := { registry, config }
  tree := t

/-- The session of a host that owes nothing. -/
abbrev settled (e : Engine) (t : Tree) : Session := { engine := e, tree := t }

/-- The session after an action.  A change of the tree makes notices due, which the host gives by
`invalidate` and `stateChanged`. -/
def step (s : Session) : Action → Session
  | .replaceSheet sheet => { s with engine := s.engine.replaceSheet sheet }
  | .editSheet edit => { s with engine := s.engine.modifySheet edit.apply }
  | .setInline n style => { s with engine := s.engine.setInline n style }
  | .clearInline n => { s with engine := s.engine.clearInline n }
  | .setGlobal name value => { s with engine := s.engine.setGlobal name value }
  | .removeGlobal name => { s with engine := s.engine.removeGlobal name }
  | .invalidate n =>
    { s with engine := s.engine.invalidate n, due := s.due.filter fun notice => notice.node ≠ n }
  | .stateChanged n =>
    { s with
      engine := s.engine.stateChanged n
      due := s.due.filter fun notice => notice ≠ .stateChanged n }
  | .invalidateAll => { s with engine := s.engine.invalidateAll, due := [] }
  | .forget n => { s with engine := s.engine.forget n }
  | .edit edit => { s with tree := edit.apply s.tree, due := s.due ++ edit.owed s.tree }
  | .computedStyle n | .animations n => { s with engine := s.engine.refresh s.tree n }
  | .report n => { s with engine := (s.engine.report s.tree n).1 }

/-- The session after a list of actions. -/
def run (s : Session) (actions : List Action) : Session := actions.foldl step s

@[simp] theorem run_nil (s : Session) : s.run [] = s := rfl

@[simp] theorem run_cons (s : Session) (a : Action) (actions : List Action) :
    s.run (a :: actions) = (s.step a).run actions := rfl

theorem run_append (s : Session) (actions more : List Action) :
    s.run (actions ++ more) = (s.run actions).run more := List.foldl_append

/-! ## What hosts promise -/

/-- Whether the host may do this now: the tree stays a forest, and questions are about nodes of the
tree and asked when no notice is due. -/
def Allows (s : Session) : Action → Prop
  | .edit edit => (edit.apply s.tree).IsForest
  | .computedStyle n | .animations n | .report n => s.due = [] ∧ n < s.tree.size
  | _ => True

/-- No counter has reached its limit. -/
structure Unsaturated (s : Session) : Prop where
  exchanges : s.engine.exchanges < counterLimit
  version : s.engine.sheet.version < counterLimit
  globals : s.engine.globalsVersion < counterLimit
  inline : s.engine.inlineCounter < counterLimit
  generation : s.engine.generation < counterLimit

instance (s : Session) : Decidable s.Unsaturated :=
  decidable_of_iff
    (s.engine.exchanges < counterLimit ∧ s.engine.sheet.version < counterLimit ∧
      s.engine.globalsVersion < counterLimit ∧ s.engine.inlineCounter < counterLimit ∧
      s.engine.generation < counterLimit)
    ⟨fun ⟨h₁, h₂, h₃, h₄, h₅⟩ => ⟨h₁, h₂, h₃, h₄, h₅⟩,
      fun ⟨h₁, h₂, h₃, h₄, h₅⟩ => ⟨h₁, h₂, h₃, h₄, h₅⟩⟩

/-- The host may do these actions one after another, and no counter reaches its limit. -/
def Follows : Session → List Action → Prop
  | _, [] => True
  | s, a :: actions => s.Allows a ∧ (s.step a).Unsaturated ∧ (s.step a).Follows actions

theorem follows_append {s : Session} {actions more : List Action} :
    s.Follows (actions ++ more) ↔ s.Follows actions ∧ (s.run actions).Follows more := by
  induction actions generalizing s with
  | nil => simp [Follows]
  | cons a actions ih => simp only [List.cons_append, Follows, ih, run_cons, and_assoc]

/-- What every action keeps holds after every run. -/
theorem Follows.invariant {P : Session → Prop}
    (step : ∀ s a, P s → s.Allows a → (s.step a).Unsaturated → P (s.step a))
    {s : Session} {actions : List Action} (h : s.Follows actions) (hs : P s) :
    P (s.run actions) := by
  induction actions generalizing s with
  | nil => exact hs
  | cons a actions ih =>
      obtain ⟨hallows, hunsaturated, hmore⟩ := h
      exact ih hmore (step s a hs hallows hunsaturated)

/-- A question is asked when no notice is due, about a node of the tree. -/
theorem Allows.of_queried {s : Session} {a : Action} {n : NodeId} (h : s.Allows a)
    (ha : a.queried? = some n) : s.due = [] ∧ n < s.tree.size := by
  cases a with
  | computedStyle m => cases ha; exact h
  | animations m => cases ha; exact h
  | report m => cases ha; exact h
  | _ => simp [Action.queried?] at ha

end Session

end WidgetStyle
