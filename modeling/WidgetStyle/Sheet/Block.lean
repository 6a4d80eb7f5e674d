import WidgetStyle.Entries
import WidgetStyle.Property.Registry
import WidgetStyle.Source.Declaration
import WidgetStyle.Variable.Basic

/-!
# WidgetStyle.Sheet.Block — declaration blocks

A block holds declarations of properties and of variables, each name once, the last one written.
Written declarations are normalised on the way in: names of variables keep their case, other names
are lowered and aliases resolved, and shorthands are replaced by their longhands.

A longhand may be a shorthand itself.  `Registry.normaliseWithin?` follows such chains for a given
number of steps; one step for every shorthand and one more are enough for every chain that ends.  A
shorthand that leads back to itself has no end, and then no number of steps is enough.
-/

namespace WidgetStyle

open Text

/-- A declaration of a property as a rule keeps it.  The identity is set when the property is
registered. -/
structure Declaration where
  name : String
  id? : Option PropertyId
  value : String
  specificity : Specificity
  important : Bool
  deriving DecidableEq, Repr

/-- The key under which declarations compete: the property, or the hash of an unknown name. -/
def Declaration.key (d : Declaration) : PropertyId := d.id?.getD (.ofName d.name)

/-! ## Normalisation -/

/-- What a block keeps of a written declaration. -/
inductive Entry where
  | variable (name value : String)
  | property (name : String) (id? : Option PropertyId) (value : String)
  deriving DecidableEq, Repr

/-- What a written declaration stands for: an entry, or declarations of longhands. -/
inductive Reading where
  | entry (e : Entry)
  | longhands (declarations : List (String × String))
  deriving DecidableEq, Repr

/-- Reads a written declaration, with one step of shorthand expansion. -/
def Registry.read (r : Registry) (name value : String) : Reading :=
  let name := trimmed name
  if isVariableName name then .entry (.variable name (trimmed value))
  else
    let name := r.canonicalName (lower name)
    match r.longhands? name value with
    | some declarations => .longhands declarations
    | none => .entry (.property name ((r.property? name).map Property.id) (trimmed value))

/-- The entries that a written declaration stands for, with shorthands among its longhands expanded
in their turn, when they end within a number of steps. -/
def Registry.normaliseWithin? (r : Registry) : Nat → String → String → Option (List Entry)
  | 0, _, _ => none
  | steps + 1, name, value =>
    match r.read name value with
    | .entry e => some [e]
    | .longhands declarations => do
      let parts ← declarations.mapM fun d => normaliseWithin? r steps d.1 d.2
      some parts.flatten

/-- More steps than any stack holds: following a chain of shorthands without an end takes them all. -/
def endlessSteps : Nat := 0x4000000000000000

/-- The entries that a written declaration stands for. -/
def Registry.entries (r : Registry) (name value : String) : List Entry :=
  (r.normaliseWithin? (r.shorthands.size + endlessSteps + 1) name value).getD []

/-! ## Blocks -/

/-- Declarations and variables, each name once, in the order of first writing. -/
structure Block where
  declarations : List Declaration := []
  vars : List Variable := []
  deriving DecidableEq, Repr, Inhabited

namespace Block

/-- The declaration of a name. -/
def declaration? (b : Block) (name : String) : Option Declaration :=
  b.declarations.find? fun d => d.name = name

/-- Whether nothing is declared. -/
def isEmpty (b : Block) : Bool := b.declarations.isEmpty && b.vars.isEmpty

/-- Writes a declaration over the one of its name. -/
def writeDeclaration (b : Block) (d : Declaration) : Block :=
  { b with declarations := putByName Declaration.name d b.declarations }

/-- Writes a variable over the one of its name. -/
def writeVariable (b : Block) (v : Variable) : Block :=
  { b with vars := putByName Variable.name v b.vars }

/-- Writes an entry. -/
def put (b : Block) (specificity : Specificity) (important : Bool) : Entry → Block
  | .variable name value => b.writeVariable { name, value, specificity }
  | .property name id? value => b.writeDeclaration { name, id?, value, specificity, important }

/-- Normalises a written declaration and writes its entries. -/
def push (b : Block) (r : Registry) (specificity : Specificity) (d : Source.Declaration) :
    Block :=
  (r.entries d.name d.value).foldl (fun b e => b.put specificity d.important e) b

/-- The block with every declaration and variable of another written over it. -/
def merge (b other : Block) : Block :=
  other.vars.foldl writeVariable (other.declarations.foldl writeDeclaration b)

/-- The block with another specificity. -/
def withSpecificity (b : Block) (specificity : Specificity) : Block where
  declarations := b.declarations.map fun d => { d with specificity }
  vars := b.vars.map fun v => { v with specificity }

/-- The block with its variables at another place in the order of rules. -/
def withOrder (b : Block) (order : Nat) : Block :=
  { b with vars := b.vars.map fun v => { v with order } }

end Block

end WidgetStyle
