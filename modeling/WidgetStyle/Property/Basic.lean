import WidgetStyle.Value.NameHash
import WidgetStyle.Value.Split

/-!
# WidgetStyle.Property.Basic — properties and shorthands

A property has a name, a default value, and a flag that says whether nodes inherit it.  A
shorthand is a property that stands for several others: its value is cut into words, and each
longhand takes one of them.
-/

namespace WidgetStyle

open Value

/-- The identity of a property name: its hash. -/
structure PropertyId where
  hash : UInt32
  deriving DecidableEq, Repr

/-- The identity of a name. -/
def PropertyId.ofName (name : String) : PropertyId := ⟨nameHash name⟩

/-- A property that values are computed for.  Indexed properties hold lists. -/
structure Property where
  name : String
  default : String
  inherited : Bool
  indexed : Bool := false
  aliases : List String := []
  deriving DecidableEq, Repr

/-- The identity of a property. -/
def Property.id (p : Property) : PropertyId := .ofName p.name

/-! ## Shorthands -/

/-- How the words of a value spread over longhands: over the four sides of a box, or over a
pair. -/
inductive ShorthandKind where
  | box | pair
  deriving DecidableEq, Repr

/-- The number of longhands of a kind. -/
def ShorthandKind.size : ShorthandKind → Nat
  | box => 4
  | pair => 2

/-- Which word each longhand takes, for a value of so many words.  Missing sides repeat the side
opposite to them, and a single word fills everything. -/
def ShorthandKind.choice? : ShorthandKind → Nat → Option (List Nat)
  | box, 1 => some [0, 0, 0, 0]
  | box, 2 => some [0, 1, 0, 1]
  | box, 3 => some [0, 1, 2, 1]
  | box, 4 => some [0, 1, 2, 3]
  | pair, 1 => some [0, 0]
  | pair, 2 => some [0, 1]
  | _, _ => none

/-- A name that stands for several properties. -/
structure Shorthand where
  name : String
  longhands : List String
  kind : ShorthandKind
  deriving DecidableEq, Repr

/-- The identity of a shorthand. -/
def Shorthand.id (s : Shorthand) : PropertyId := .ofName s.name

/-- Spreads a value over the longhands; `none` when the number of words does not fit. -/
def Shorthand.expand? (s : Shorthand) (value : String) : Option (List (String × String)) :=
  let words := splitWords value.toList
  (s.kind.choice? words.length).map fun choice =>
    (s.longhands.zip choice).filterMap fun (longhand, i) =>
      (words[i]?).map fun word => (longhand, String.ofList word)

end WidgetStyle
