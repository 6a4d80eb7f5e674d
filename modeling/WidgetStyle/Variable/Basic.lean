import WidgetStyle.Assoc
import WidgetStyle.Selector.Specificity
import WidgetStyle.Value.NameHash

/-!
# WidgetStyle.Variable.Basic — style variables and their scopes

A variable remembers the rank of the rule that declared it.  In a scope `declare` keeps the
higher rank, the later declaration winning a tie, and `set` overwrites whatever is there.
-/

namespace WidgetStyle

/-- The highest value of the counters that number rules and changes; a counter that reaches it
stays there. -/
def counterLimit : Nat := UInt64.size - 1

/-- The next value of a counter. -/
def nextCount (n : Nat) : Nat := min (n + 1) counterLimit

/-- A variable: its name with the leading hyphens, its text, and the rank of its rule. -/
structure Variable where
  name : String
  value : String
  specificity : Specificity
  order : Nat := 0
  deriving DecidableEq, Repr

/-- The hash of a variable's name. -/
def Variable.nameHash (v : Variable) : UInt32 := Value.nameHash v.name

/-- Whether `v` replaces `w` in a scope: its rank is not below. -/
def Variable.outranks (v w : Variable) : Bool :=
  ((compare v.specificity w.specificity).then (compare v.order w.order)) != .lt

/-- Variables by name. -/
abbrev Scope := Assoc String Variable

namespace Scope

/-- Whether declaring `v` stores it: nothing of that name outranks it. -/
def admits (s : Scope) (v : Variable) : Bool :=
  match s.get? v.name with
  | none => true
  | some w => v.outranks w

/-- Overwrites the variable of that name. -/
def set (s : Scope) (v : Variable) : Scope := s.insert v.name v

/-- Stores a variable unless one of higher rank has its name. -/
def declare (s : Scope) (v : Variable) : Scope := if s.admits v then set s v else s

/-- Overwrites with every variable of another scope. -/
def overlay (s other : Scope) : Scope := other.values.foldl set s

end Scope

end WidgetStyle
