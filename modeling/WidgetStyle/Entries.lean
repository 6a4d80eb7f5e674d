/-!
# WidgetStyle.Entries — lists of named entries

Declarations, variables, transitions and animations are kept in lists in which a name stands once:
a later entry takes the place of an earlier one of its name (`putByName`).  Longhand lists repeat
themselves to cover all entries of another list (`overrideEach`).
-/

namespace WidgetStyle

/-- Item `i` of a list that repeats itself without end. -/
def repeating? {α : Type} (items : List α) (i : Nat) : Option α := items[i % items.length]?

/-- Overrides every entry with the item of a repeating list that falls to it. -/
def overrideEach {α : Type} (change : α → String → α) (items : List String) (entries : List α) :
    List α :=
  entries.zipIdx.map fun (entry, i) =>
    match repeating? items i with
    | some item => change entry item
    | none => entry

/-- Replaces the first entry of the same name in place, or appends. -/
def putByName {α : Type} (name : α → String) (x : α) : List α → List α
  | [] => [x]
  | y :: ys => if name y = name x then x :: ys else y :: putByName name x ys

/-- The entries with every later one written over an earlier one of its name. -/
def collectByName {α : Type} (name : α → String) (entries : List α) : List α :=
  entries.foldl (fun found x => putByName name x found) []

/-- The value of the last declaration of a name. -/
def lastValue? (declarations : List (String × String)) (name : String) : Option String :=
  declarations.reverse.lookup name

end WidgetStyle
