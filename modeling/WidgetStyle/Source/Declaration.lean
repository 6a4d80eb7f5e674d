import WidgetStyle.Source.Component
import WidgetStyle.Value.Comment

/-!
# WidgetStyle.Source.Declaration — declaration lists

A declaration is `name: value`, ended by a semicolon or the end of its list, with an optional
`!important` at the end of the value.  What is no declaration is left out: an at-rule goes up to
its semicolon or its block, anything else up to the next semicolon.  Blocks in a value hide the
semicolons inside them.
-/

namespace WidgetStyle.Source

open Text Value

/-- A declaration as written: its name, in lower case unless it names a variable, its value
without comments, and whether it was marked important. -/
structure Declaration where
  name : String
  value : String
  important : Bool
  deriving DecidableEq, Repr

/-- Variable names keep their letter case, other names are read in lower case. -/
def declaredName (name : String) : String := if isVariableName name then name else lower name

/-- The word that raises a declaration above the normal ones. -/
def importantWord : List Char := ['i', 'm', 'p', 'o', 'r', 't', 'a', 'n', 't']

/-- The trimmed value without a final `!important`, and whether it was there.  Blanks may stand
after the last `!`, and the case of the word does not matter. -/
def splitImportant (value : List Char) : List Char × Bool :=
  let value := trim value
  let tail := (value.reverse.takeWhile (· != '!')).reverse
  match value.reverse.dropWhile (· != '!') with
  | [] => (value, false)
  | _ :: front =>
    if (trimStart tail).map Char.toLower = importantWord then (trimEnd front.reverse, true)
    else (value, false)

/-- The declaration of a name, from the components between the name and the semicolon.  A colon
has to be the first of them apart from gaps. -/
def declaration? (name : List Char) (item : List Component) : Option Declaration :=
  match item.dropWhile Component.isGap with
  | [] => none
  | c :: value =>
    if c.head.kind = .colon then
      let (value, important) := splitImportant (blankComments (sourceText value))
      some ⟨declaredName (nameValue name), String.ofList value, important⟩
    else none

/-- Whether the component ends an at-rule. -/
def endsAtRule (c : Component) : Bool := c.isSemicolon || c.isBody

/-- Whether the component may stand between declarations without being part of one.  A closing
curly bracket is only met where no block is open. -/
def Component.isBetweenDeclarations (c : Component) : Bool :=
  c.isGap || c.isSemicolon || c.head.kind = .closing .curly

/-- The declarations among the components of a declaration list. -/
def declarationsIn : List Component → List Declaration
  | [] => []
  | c :: cs =>
    if c.isBetweenDeclarations then declarationsIn cs
    else if c.head.kind = .atName then declarationsIn ((onwards endsAtRule cs).drop 1)
    else
      let declared :=
        if c.head.kind = .name then
          declaration? c.head.text (before Component.isSemicolon cs)
        else none
      declared.toList ++ declarationsIn ((onwards Component.isSemicolon cs).drop 1)
termination_by cs => cs.length
decreasing_by
  · simp
  · exact length_drop_onwards_lt _ _ _
  · exact length_drop_onwards_lt _ _ _

/-- The declarations of a text such as the inside of a rule or an inline style. -/
def declarations (text : String) : List Declaration :=
  declarationsIn (componentsOf text.toList)

end WidgetStyle.Source
