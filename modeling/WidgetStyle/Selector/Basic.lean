import WidgetStyle.Selector.PseudoClass
import WidgetStyle.Selector.Specificity

/-!
# WidgetStyle.Selector.Basic — selectors

A compound is a run of simple selectors that all speak of one node; a selector is a chain of
compounds joined by combinators.  The last compound of the chain is the subject: the one that the
matched node itself has to satisfy.
-/

namespace WidgetStyle

/-- A requirement on one node.  Tags and attribute names are in lower case. -/
inductive SimpleSelector where
  | hasTag (name : String)
  | universal
  | hasClass (name : String)
  | hasId (name : String)
  | hasAttribute (name : String)
  | attributeIs (name value : String)
  | pseudo (p : PseudoClass)
  deriving DecidableEq, Repr

/-- One count in the tier of a simple selector; the universal one counts nothing. -/
def SimpleSelector.specificity : SimpleSelector → Specificity
  | .hasId _ => ⟨1, 0, 0⟩
  | .hasClass _ | .hasAttribute _ | .attributeIs _ _ | .pseudo _ => ⟨0, 1, 0⟩
  | .hasTag _ => ⟨0, 0, 1⟩
  | .universal => .zero

/-- Simple selectors that one node has to satisfy together. -/
structure Compound where
  simples : List SimpleSelector
  deriving DecidableEq, Repr, Inhabited

/-- How the nodes of two neighbouring compounds are related. -/
inductive Combinator where
  | descendant | child | adjacentSibling | generalSibling
  deriving DecidableEq, Repr

/-- A chain of compounds.  The combinator of a pair joins its compound to the one on its left.
The text is what the selector was read from, with blanks collapsed. -/
structure Selector where
  first : Compound
  rest : List (Combinator × Compound)
  text : String
  deriving DecidableEq, Repr, Inhabited

namespace Compound

/-- The first id the compound asks for. -/
def id? (c : Compound) : Option String :=
  c.simples.findSome? fun
    | .hasId name => some name
    | _ => none

/-- The first tag the compound asks for. -/
def tag? (c : Compound) : Option String :=
  c.simples.findSome? fun
    | .hasTag name => some name
    | _ => none

/-- The pseudo-classes the compound asks for. -/
def pseudoClasses (c : Compound) : PseudoSet :=
  .ofList (c.simples.filterMap fun
    | .pseudo p => some p
    | _ => none)

/-- The sum over the simple selectors. -/
def specificity (c : Compound) : Specificity :=
  c.simples.foldl (fun total simple => total.add simple.specificity) .zero

end Compound

namespace Selector

/-- The compounds from left to right. -/
def compounds (s : Selector) : List Compound := s.first :: s.rest.map Prod.snd

/-- The compound of the matched node. -/
def subject (s : Selector) : Compound := (s.rest.getLast?.map Prod.snd).getD s.first

/-- The sum over all compounds. -/
def specificity (s : Selector) : Specificity :=
  s.rest.foldl (fun total link => total.add link.2.specificity) s.first.specificity

/-- Whether no compound has a simple selector. -/
def isEmpty (s : Selector) : Bool := s.compounds.all fun c => c.simples.isEmpty

/-- Whether some compound asks for a pseudo-class. -/
def hasPseudoClasses (s : Selector) : Bool :=
  s.compounds.any fun c => !c.pseudoClasses.isEmpty

/-- Each compound but the last together with the combinator on its right, from right to left:
the way matching walks away from the subject. -/
def leftward (s : Selector) : List (Combinator × Compound) :=
  ((s.rest.map Prod.fst).zip s.compounds).reverse

end Selector

end WidgetStyle
