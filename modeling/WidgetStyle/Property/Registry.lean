import WidgetStyle.Assoc
import WidgetStyle.Property.Basic

/-!
# WidgetStyle.Property.Registry — the known properties

A registry lists the properties in the order of registration, and maps aliases and shorthands to
them.  Names are found by their hash: of two names with one hash the first registered is kept, and
a look-up by name checks the name as well.
-/

namespace WidgetStyle

open Text

/-- The known properties, the aliases with the property each stands for, and the shorthands. -/
structure Registry where
  properties : List Property
  aliases : Assoc String PropertyId
  shorthands : Assoc PropertyId Shorthand

namespace Registry

/-- The registry that knows nothing. -/
def empty : Registry := ⟨[], .empty, .empty⟩

instance : Inhabited Registry := ⟨empty⟩

/-- Names are registered trimmed and in lower case. -/
def registeredName (name : String) : String := lower (trimmed name)

/-! ## Looking up -/

/-- The property of an identity. -/
def byId? (r : Registry) (id : PropertyId) : Option Property :=
  r.properties.find? fun p => p.id = id

/-- The property of an alias. -/
def byAlias? (r : Registry) (name : String) : Option Property :=
  (r.aliases.get? name).bind r.byId?

/-- The property of a name or an alias. -/
def property? (r : Registry) (name : String) : Option Property :=
  match r.byId? (.ofName name) with
  | some p => if p.name = name then some p else r.byAlias? name
  | none => r.byAlias? name

/-- Whether the name or alias is known. -/
def contains (r : Registry) (name : String) : Bool := (r.property? name).isSome

/-- The name that a name stands for: itself if its hash is registered, else the property it is an
alias of, else itself. -/
def canonicalName (r : Registry) (name : String) : String :=
  if (r.byId? (.ofName name)).isSome then name
  else ((r.byAlias? name).map Property.name).getD name

/-- The shorthand of a name. -/
def shorthand? (r : Registry) (name : String) : Option Shorthand :=
  r.shorthands.get? (.ofName name)

/-- The longhands that a declaration of a shorthand stands for. -/
def longhands? (r : Registry) (name value : String) : Option (List (String × String)) :=
  (r.shorthand? name).bind fun s => s.expand? value

/-! ## Registering -/

/-- Changes the property of an identity. -/
def modify (r : Registry) (id : PropertyId) (f : Property → Property) : Registry :=
  { r with properties := r.properties.map fun p => if p.id = id then f p else p }

/-- Registers a property.  When its hash is taken the property that has it stays. -/
def register (r : Registry) (name default : String) (inherited : Bool) : Registry :=
  let name := registeredName name
  if (r.byId? (.ofName name)).isSome then r
  else { r with properties := r.properties ++ [{ name, default, inherited }] }

/-- Says whether the property of an identity holds lists. -/
def setIndexed (r : Registry) (id : PropertyId) (indexed : Bool) : Registry :=
  r.modify id fun p => { p with indexed }

/-- Registers a property that holds lists. -/
def registerList (r : Registry) (name default : String) (inherited : Bool) : Registry :=
  (r.register name default inherited).setIndexed (.ofName (registeredName name)) true

/-- The property that the name an alias is made for stands for. -/
def aliasTarget? (r : Registry) (name : String) : Option Property :=
  r.byId? (.ofName (r.canonicalName name))

/-- Makes a name stand for a property, when there is one. -/
def addAlias (r : Registry) (name newName : String) : Registry :=
  match r.aliasTarget? name with
  | none => r
  | some p =>
    let newName := registeredName newName
    let r := r.modify p.id fun p => { p with aliases := p.aliases ++ [newName] }
    { r with aliases := r.aliases.insert newName p.id }

/-- Whether a shorthand of this kind can have these longhands: as many as the kind asks for, all
of them known. -/
def acceptsShorthand (r : Registry) (longhands : List String) (kind : ShorthandKind) : Bool :=
  longhands.length = kind.size && longhands.all r.contains

/-- Registers a shorthand, when its longhands are known. -/
def addShorthand (r : Registry) (name : String) (longhands : List String)
    (kind : ShorthandKind) : Registry :=
  if r.acceptsShorthand longhands kind then
    let s : Shorthand := ⟨registeredName name, longhands.map r.canonicalName, kind⟩
    { r with shorthands := r.shorthands.insert s.id s }
  else r

end Registry

end WidgetStyle
