import WidgetStyle.Source.Declaration

/-!
# WidgetStyle.Source.Rule — the rules of a style sheet text

A style sheet text is a list of items: rules, made of a heading and a body in curly brackets, and
at-rules, made of a name and a heading that end at a semicolon or after a body.  Of the at-rules
only keyframe sets are understood; every other item that cannot be used is counted as skipped.
-/

namespace WidgetStyle.Source

open Text Value

/-- A rule as written: its heading without comments, and its declarations in order. -/
structure Rule where
  heading : String
  declarations : List Declaration
  deriving DecidableEq, Repr

/-- A named keyframe set as written; the headings of its frames are offset lists. -/
structure Keyframes where
  name : String
  frames : List Rule
  deriving DecidableEq, Repr

/-- What a style sheet text holds, with the number of items that were skipped. -/
structure Sheet where
  rules : List Rule
  keyframes : List Keyframes
  skipped : Nat
  deriving DecidableEq, Repr

/-! ## Items -/

/-- An item of a style sheet text. -/
inductive Item where
  | rule (heading : List Component) (body : List Lexeme)
  | atRule (name : String) (heading : List Component) (body : Option (List Lexeme))
  | broken
  deriving DecidableEq, Repr

/-- Whether the components begin with a variable name and a colon: a variable declaration astray
between the rules, which hides the next body. -/
def startsVariable (cs : List Component) : Bool :=
  match cs.dropWhile Component.isGap with
  | [] => false
  | c :: more =>
    c.head.kind = .name && isVariableName (nameValue c.head.text)
      && ((more.dropWhile Component.isGap).head?.any fun d => d.head.kind = .colon)

/-- Whether the component may stand between items without being part of one. -/
def Component.isBetweenItems (c : Component) : Bool :=
  c.isGap || c.head.kind = .markupOpen || c.head.kind = .markupClose

/-- The items among the components of a text. -/
def itemsIn : List Component → List Item
  | [] => []
  | c :: cs =>
    if c.isBetweenItems then itemsIn cs
    else if c.head.kind = .atName then
      let name := nameValue (c.head.text.drop 1)
      let ending := (onwards endsAtRule cs).head?
      .atRule name (before endsAtRule cs)
          ((ending.filter Component.isBody).map Component.inside)
        :: itemsIn ((onwards endsAtRule cs).drop 1)
    else
      let item :=
        if startsVariable (c :: cs) then .broken
        else
          match (onwards Component.isBody (c :: cs)).head? with
          | some body => .rule (before Component.isBody (c :: cs)) body.inside
          | none => .broken
      item :: itemsIn ((onwards Component.isBody (c :: cs)).drop 1)
termination_by cs => cs.length
decreasing_by
  · simp
  · exact length_drop_onwards_lt _ _ _
  · have := length_onwards_le Component.isBody (c :: cs)
    simp only [List.length_drop, List.length_cons] at this ⊢
    omega

/-- An encoding declaration in front of all other items says nothing and is not counted. -/
def dropEncoding : List Item → List Item
  | .atRule name heading body :: items =>
    if lower name = "charset" then items else .atRule name heading body :: items
  | items => items

/-- The items of a list of lexemes, without a leading encoding declaration. -/
def items (xs : List Lexeme) : List Item := dropEncoding (itemsIn (components xs))

/-! ## Rules and keyframe sets -/

/-- The text of a heading: without comments and trimmed. -/
def headingText (heading : List Component) : String :=
  String.ofList (trim (blankComments (sourceText heading)))

/-- The rule of an item, when the item is one with a heading. -/
def Item.rule? : Item → Option Rule
  | .rule heading body =>
    let text := headingText heading
    if text = "" then none else some ⟨text, declarationsIn (components body)⟩
  | _ => none

/-- Whether an at-rule of this name is a keyframe set. -/
def namesKeyframes (name : String) : Bool :=
  lower name = "keyframes" || lower name = "-webkit-keyframes"

/-- The name of a keyframe set: a single name or string. -/
def keyframesName? (heading : List Component) : Option String :=
  match heading.filter fun c => !c.isGap with
  | [c] =>
    match c.head.kind with
    | .name => some (nameValue c.head.text)
    | .string => some (stringValue c.head.text)
    | _ => none
  | _ => none

/-- The keyframe set of an item, when the item is one with a name and a body.  What is no frame
inside the body is left out. -/
def Item.keyframes? : Item → Option Keyframes
  | .atRule name heading (some body) =>
    if namesKeyframes name then
      (keyframesName? heading).map fun name => ⟨name, (items body).filterMap Item.rule?⟩
    else none
  | _ => none

/-- Whether nothing can be made of an item. -/
def Item.isSkipped (item : Item) : Bool := item.rule?.isNone && item.keyframes?.isNone

/-- A byte order mark in front of a text is not part of it. -/
def dropByteOrderMark : List Char → List Char
  | '\uFEFF' :: cs => cs
  | cs => cs

/-- The sheet made of a list of items. -/
def Sheet.ofItems (items : List Item) : Sheet :=
  ⟨items.filterMap Item.rule?, items.filterMap Item.keyframes?, items.countP Item.isSkipped⟩

/-- Reads a style sheet text.  Nothing makes it fail. -/
def Sheet.parse (text : String) : Sheet :=
  .ofItems (items (lexemes (dropByteOrderMark text.toList)))

end WidgetStyle.Source
