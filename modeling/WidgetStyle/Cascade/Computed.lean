import WidgetStyle.Cascade.Winners
import WidgetStyle.Timing.Request
import WidgetStyle.Variable.Substitution

/-!
# WidgetStyle.Cascade.Computed — the computed style of a node

A computed style has a value for every registered property.  A winning declaration gives its text
with all references replaced, unless it is one of the keywords `inherit`, `initial` and `unset`;
without a winner the property is inherited or has its default, as its definition says.
References are looked up among the variables of the node, then those it inherits, then the global
ones.
-/

namespace WidgetStyle

open Text

/-- Values of the registered properties, visible variables, transitions and animations. -/
structure ComputedStyle where
  values : Assoc PropertyId String := .empty
  scope : Scope := .empty
  transitions : List Transition := []
  animations : List Animation := []
  deriving Inhabited

/-- What a style is computed from besides the cascade: the registry, the style of the parent, the
global variables and the bound on nested expansion. -/
structure StyleContext where
  registry : Registry
  parent? : Option ComputedStyle := none
  globals : Scope := .empty
  maxDepth : Nat := defaultDepth

namespace ComputedStyle

/-- The value of an identity. -/
def value? (s : ComputedStyle) (id : PropertyId) : Option String := s.values.get? id

/-- The value of a property's name or alias. -/
def valueOf? (s : ComputedStyle) (r : Registry) (name : String) : Option String :=
  (r.property? name).bind fun p => s.value? p.id

/-- The items of a value that holds a list. -/
def items (s : ComputedStyle) (id : PropertyId) : List String :=
  match s.value? id with
  | none => []
  | some value => (Value.splitList ',' value.toList).map String.ofList

/-- Equality of styles; the order in which values and variables are kept does not matter. -/
def same (s u : ComputedStyle) : Bool :=
  s.values.agrees (· == ·) u.values && s.scope.agrees (· == ·) u.scope
    && s.transitions.length == u.transitions.length
    && (s.transitions.zip u.transitions).all (fun (x, y) => x.same y)
    && s.animations.length == u.animations.length
    && (s.animations.zip u.animations).all fun (x, y) => x.same y

/-! ## Changes -/

/-- The value of a property, its default when there is none. -/
def valueOrDefault (s : ComputedStyle) (p : Property) : String := (s.value? p.id).getD p.default

/-- Whether changes of the property are reported: it is no transition or animation property. -/
def isReported (p : Property) : Bool :=
  !Transition.isOwnProperty p.name && !Animation.isOwnProperty p.name

/-- The change of a property between two styles. -/
def change? (s previous : ComputedStyle) (p : Property) : Option ValueChange :=
  let oldValue := previous.valueOrDefault p
  let newValue := s.valueOrDefault p
  if oldValue = newValue then none else some ⟨p.name, oldValue, newValue⟩

/-- The changed properties in registration order. -/
def changes (s previous : ComputedStyle) (r : Registry) : List ValueChange :=
  (r.properties.filter isReported).filterMap (s.change? previous)

end ComputedStyle

/-! ## Computing -/

namespace StyleContext

/-- The variables that a node inherits. -/
def inheritedVariables (x : StyleContext) : Scope :=
  (x.parent?.map ComputedStyle.scope).getD .empty

/-- The value of the parent, or the default at a root. -/
def inheritedValue (x : StyleContext) (p : Property) : String :=
  (x.parent?.bind fun parent => parent.value? p.id).getD p.default

/-- The value of a property that is not declared. -/
def unsetValue (x : StyleContext) (p : Property) : String :=
  if p.inherited then x.inheritedValue p else p.default

/-- The value that a text gives to a property, keywords resolved. -/
def resolve (x : StyleContext) (p : Property) (text : String) : String :=
  let text := trimmed text
  let keyword := lower text
  if keyword = "inherit" then x.inheritedValue p
  else if keyword = "initial" then p.default
  else if keyword = "unset" then x.unsetValue p
  else text

/-- The value of a property for a node with the given winners and references. -/
def valueOf (x : StyleContext) (c : Cascaded) (resolver : Resolver) (p : Property) : String :=
  match c.winner? p.id with
  | some d => x.resolve p (resolver.substitute d.value)
  | none => x.unsetValue p

/-- The winning declarations that pass a test, with their references replaced. -/
def substitutedDeclarations (c : Cascaded) (resolver : Resolver) (keep : String → Bool) :
    List (String × String) :=
  (c.declarations.filter fun d => keep d.name).map fun d => (d.name, resolver.substitute d.value)

/-- Computes the style of a node from its cascade. -/
def compute (x : StyleContext) (c : Cascaded) : ComputedStyle :=
  let scope := Scope.overlay x.inheritedVariables c.scope
  let resolver : Resolver := ⟨[scope, x.globals], x.maxDepth⟩
  { values := x.registry.properties.foldl
      (fun values p => values.insert p.id (x.valueOf c resolver p)) .empty
    scope
    transitions :=
      Transition.ofDeclarations (substitutedDeclarations c resolver Transition.isOwnProperty)
    animations :=
      Animation.ofDeclarations (substitutedDeclarations c resolver Animation.isOwnProperty) }

end StyleContext

end WidgetStyle
