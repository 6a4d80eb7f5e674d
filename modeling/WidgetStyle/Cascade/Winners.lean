import WidgetStyle.Cascade.Rank
import WidgetStyle.Sheet.Rule

/-!
# WidgetStyle.Cascade.Winners — the winning declarations of a node

The cascade goes through the rules of a node and its inline style, and keeps the declaration of
highest rank for every key, and the variable of highest rank for every name.
-/

namespace WidgetStyle

/-- The winning declarations with their ranks, and the variables that a node's rules declare. -/
structure Cascaded where
  winners : Assoc PropertyId (Declaration × Rank) := .empty
  scope : Scope := .empty
  deriving Inhabited

namespace Cascaded

/-- Whether nothing with a higher rank holds the key. -/
def admits (c : Cascaded) (d : Declaration) (rank : Rank) : Bool :=
  match c.winners.get? d.key with
  | none => true
  | some (_, previous) => rank.beats previous

/-- Enters a declaration with its rank. -/
def put (c : Cascaded) (rank : Declaration → Rank) (d : Declaration) : Cascaded :=
  if c.admits d (rank d) then { c with winners := c.winners.insert d.key (d, rank d) } else c

/-- Enters a variable. -/
def declare (c : Cascaded) (v : Variable) : Cascaded :=
  { c with scope := Scope.declare c.scope v }

/-- Enters a block whose declarations have the given ranks. -/
def putBlock (c : Cascaded) (rank : Declaration → Rank) (b : Block) : Cascaded :=
  b.vars.foldl declare (b.declarations.foldl (fun c d => c.put rank d) c)

/-- The rank of a declaration of a rule. -/
def ruleRank (rule : StyleRule) (d : Declaration) : Rank := ⟨d.important, d.specificity, rule.order⟩

/-- Enters a rule. -/
def putRule (c : Cascaded) (rule : StyleRule) : Cascaded := c.putBlock (ruleRank rule) rule.block

/-- Enters an inline style. -/
def putInline (c : Cascaded) (style : InlineStyle) : Cascaded :=
  c.putBlock (fun d => .inline d.important) style.block

/-- The winner for a key. -/
def winner? (c : Cascaded) (key : PropertyId) : Option Declaration :=
  (c.winners.get? key).map Prod.fst

/-- The winning declarations. -/
def declarations (c : Cascaded) : List Declaration := c.winners.values.map Prod.fst

/-- The winning declarations with their ranks, ordered by name. -/
def ranked (c : Cascaded) : List (Declaration × Rank) :=
  c.winners.values.mergeSort fun a b => a.1.name ≤ b.1.name

/-- The winning declarations ordered by name. -/
def ordered (c : Cascaded) : List Declaration := c.ranked.map Prod.fst

end Cascaded

/-- Cascades rules, in any order, and an inline style. -/
def cascade (rules : List StyleRule) (inline? : Option InlineStyle) : Cascaded :=
  let cascaded := rules.foldl Cascaded.putRule {}
  match inline? with
  | none => cascaded
  | some style => cascaded.putInline style

end WidgetStyle
