import WidgetStyle.Variable.Basic

/-!
# WidgetStyle.Cascade.Rank — which of two declarations wins

Declarations compete by importance, then specificity, then the place of their rule.  Of equal ranks
the one met later wins.
-/

namespace WidgetStyle

/-- Importance, specificity, and place in the order of rules. -/
structure Rank where
  important : Bool
  specificity : Specificity
  order : Nat
  deriving DecidableEq, Repr

namespace Rank

/-- The rank of an inline declaration: the specificity of inline styles, after every rule. -/
def inline (important : Bool) : Rank := ⟨important, .inline, counterLimit⟩

/-- Lexicographic comparison; `gt` means that the first wins. -/
def compare (a b : Rank) : Ordering :=
  (Ord.compare a.important b.important).then
    ((Ord.compare a.specificity b.specificity).then (Ord.compare a.order b.order))

instance : Ord Rank := ⟨compare⟩

/-- Whether `a`, met later, takes the place of `b`. -/
def beats (a b : Rank) : Bool := compare a b != .lt

/-- The higher of two ranks, the second of equal ones. -/
def highest (a b : Rank) : Rank := if compare a b = .gt then a else b

end Rank

end WidgetStyle
