import WidgetStyle.Selector.Parser
import WidgetStyle.Sheet.Block

/-!
# WidgetStyle.Sheet.Rule — style rules and inline styles

A rule is a selector with a block; its declarations carry the specificity of the selector, and its
variables also the rule's place in the order of the sheet.  An inline style is a block that is
attached to a node, with the rank of inline declarations.
-/

namespace WidgetStyle

/-- A selector with its block, its place in the order of its sheet, and a marker. -/
structure StyleRule where
  selector : Selector
  block : Block := {}
  order : Nat := 0
  marker : Nat := 0
  deriving DecidableEq, Repr

namespace StyleRule

/-- The specificity of the selector. -/
def specificity (rule : StyleRule) : Specificity := rule.selector.specificity

/-- Whether the rule declares nothing. -/
def isEmpty (rule : StyleRule) : Bool := rule.block.isEmpty

/-- Adds a written declaration. -/
def push (rule : StyleRule) (r : Registry) (d : Source.Declaration) : StyleRule :=
  { rule with block := rule.block.push r rule.specificity d }

/-- A rule from its selector and written declarations. -/
def ofDeclarations (r : Registry) (selector : Selector) (ds : List Source.Declaration) :
    StyleRule :=
  ds.foldl (fun rule d => rule.push r d) { selector }

/-- A rule from the texts of a selector and of a declaration list. -/
def parse (r : Registry) (selector declarations : String) : StyleRule :=
  ofDeclarations r (.parse selector) (Source.declarations declarations)

/-- The rule with the declarations of another written over its own.  They take this rule's
specificity and place. -/
def merge (rule other : StyleRule) : StyleRule :=
  { rule with
    block := rule.block.merge ((other.block.withSpecificity rule.specificity).withOrder
      rule.order) }

/-- The rule at another place in the order. -/
def withOrder (rule : StyleRule) (order : Nat) : StyleRule :=
  { rule with order, block := rule.block.withOrder order }

end StyleRule

/-- Declarations attached to a node. -/
structure InlineStyle where
  block : Block := {}
  deriving DecidableEq, Repr, Inhabited

namespace InlineStyle

/-- Adds a written declaration, with the rank of inline declarations. -/
def push (style : InlineStyle) (r : Registry) (d : Source.Declaration) : InlineStyle :=
  ⟨(style.block.push r .inline d).withOrder counterLimit⟩

/-- Reads a declaration list. -/
def parse (r : Registry) (text : String) : InlineStyle :=
  (Source.declarations text).foldl (fun style d => style.push r d) {}

/-- Whether nothing is declared. -/
def isEmpty (style : InlineStyle) : Bool := style.block.isEmpty

end InlineStyle

end WidgetStyle
