import WidgetStyle.Selector.Parser
import WidgetStyle.Tree

/-!
# WidgetStyle.Selector.Match — which nodes a selector selects

Matching starts at the subject and walks leftwards: `Selector.selects` tries, for every
combinator, the related nodes from the nearest outwards.  `Selector.Selects` says the same without
a search: some node stands for each compound, satisfies it, and is related to its neighbour as the
combinator asks.
-/

namespace WidgetStyle

/-- Whether the pseudo-classes of a selector are looked at: `strict` asks for them, `loose` takes
them for granted, and so selects every node that could be selected in some state. -/
inductive MatchMode where
  | loose
  | strict
  deriving DecidableEq, Repr

namespace Tree

/-- Whether a node has a pseudo-class now. -/
def hasPseudo (t : Tree) (n : NodeId) : PseudoClass → Bool
  | .firstChild => (t.previousSibling? n).isNone
  | .lastChild => (t.nextSibling? n).isNone
  | .onlyChild => (t.previousSibling? n).isNone && (t.nextSibling? n).isNone
  | .root => (t.parent? n).isNone
  | .empty => (t.children n).isEmpty
  | .enabled => !(t.state n).contains .disabled
  | p => (t.state n).contains p

/-- Whether a node satisfies a simple selector. -/
def satisfies (t : Tree) (mode : MatchMode) (n : NodeId) : SimpleSelector → Bool
  | .universal => true
  | .hasTag name => Text.sameLetters (t.tag n) name
  | .hasClass name => t.hasClass n name
  | .hasId name => t.idOf? n = some name
  | .hasAttribute name => (t.attribute? n name).isSome
  | .attributeIs name value => t.attribute? n name = some value
  | .pseudo p => mode = .loose || t.hasPseudo n p

/-- Whether a node satisfies every simple selector of a compound. -/
def satisfiesAll (t : Tree) (mode : MatchMode) (n : NodeId) (c : Compound) : Bool :=
  c.simples.all (t.satisfies mode n)

/-- The nodes that can stand on the left of a combinator whose right side is `n`, the nearest
first. -/
def related (t : Tree) (n : NodeId) : Combinator → List NodeId
  | .child => (t.parent? n).toList
  | .descendant => t.ancestors n
  | .adjacentSibling => (t.previousSibling? n).toList
  | .generalSibling => t.earlierSiblings n

/-- Whether the compounds to the left of `n` can be satisfied. -/
def matchLeftward (t : Tree) (mode : MatchMode) :
    List (Combinator × Compound) → NodeId → Bool
  | [], _ => true
  | (joint, c) :: more, n =>
    (t.related n joint).any fun m => t.satisfiesAll mode m c && matchLeftward t mode more m

end Tree

namespace Selector

/-- Whether the selector selects the node.  An empty selector selects nothing. -/
def selects (s : Selector) (t : Tree) (mode : MatchMode) (n : NodeId) : Bool :=
  !s.isEmpty && t.satisfiesAll mode n s.subject && t.matchLeftward mode s.leftward n

/-- A choice of nodes for the compounds to the left of `n`: each satisfies its compound and is
related to the node on its right. -/
inductive Chain (t : Tree) (mode : MatchMode) : List (Combinator × Compound) → NodeId → Prop
  | nil (n : NodeId) : Chain t mode [] n
  | cons {joint : Combinator} {c : Compound} {more : List (Combinator × Compound)}
      {n m : NodeId} (related : m ∈ t.related n joint)
      (satisfied : ∀ s ∈ c.simples, t.satisfies mode m s = true)
      (further : Chain t mode more m) : Chain t mode ((joint, c) :: more) n

/-- The selector is not empty, the node satisfies the subject, and nodes can be chosen for all
other compounds. -/
def Selects (s : Selector) (t : Tree) (mode : MatchMode) (n : NodeId) : Prop :=
  s.isEmpty = false ∧ (∀ x ∈ s.subject.simples, t.satisfies mode n x = true) ∧
    Chain t mode s.leftward n

/-- The walk leftwards finds a choice of nodes exactly when there is one. -/
theorem matchLeftward_eq_true_iff {t : Tree} {mode : MatchMode}
    {links : List (Combinator × Compound)} {n : NodeId} :
    t.matchLeftward mode links n = true ↔ Chain t mode links n := by
  induction links generalizing n with
  | nil => exact ⟨fun _ => .nil n, fun _ => rfl⟩
  | cons link links ih =>
    obtain ⟨joint, c⟩ := link
    simp only [Tree.matchLeftward, Tree.satisfiesAll, List.any_eq_true, Bool.and_eq_true,
      List.all_eq_true, ih]
    constructor
    · rintro ⟨m, hm, hc, hmore⟩
      exact .cons hm hc hmore
    · intro h
      cases h with
      | cons hm hc hmore => exact ⟨_, hm, hc, hmore⟩

end Selector

/-- Whether some selector of a list selects the node. -/
def matchesAny (selectors : List Selector) (t : Tree) (mode : MatchMode) (n : NodeId) : Bool :=
  selectors.any fun s => s.selects t mode n

end WidgetStyle
