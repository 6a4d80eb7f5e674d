import WidgetStyle.Text

/-!
# WidgetStyle.Value.Nesting — quotations and brackets in value text

Value text is cut only outside quotation marks and brackets.  `Quoting` follows the quotation
marks, `Nesting` the brackets as well.  Round and square brackets count alike, and a closing
bracket too many is ignored.
-/

namespace WidgetStyle.Value

open Text

/-- Where a walk stands with respect to quotation marks; after a backslash inside a quotation the
next character is taken as it is. -/
inductive Quoting where
  | outside
  | inside (quote : Char)
  | escaped (quote : Char)
  deriving DecidableEq, Repr

/-- The state after one more character. -/
def Quoting.step : Quoting → Char → Quoting
  | .outside, c => if isQuote c then .inside c else .outside
  | .inside quote, c =>
    if c = '\\' then .escaped quote else if c = quote then .outside else .inside quote
  | .escaped quote, _ => .inside quote

/-- Quotation state and the number of open brackets. -/
structure Nesting where
  quoting : Quoting := .outside
  depth : Nat := 0
  deriving DecidableEq, Repr

/-- Whether the character is an opening bracket. -/
def opensBracket (c : Char) : Bool := c == '(' || c == '['

/-- Whether the character is a closing bracket. -/
def closesBracket (c : Char) : Bool := c == ')' || c == ']'

/-- The state after one more character. -/
def Nesting.step (st : Nesting) (c : Char) : Nesting where
  quoting := st.quoting.step c
  depth :=
    if st.quoting = .outside then
      if opensBracket c then st.depth + 1
      else if closesBracket c then st.depth - 1
      else st.depth
    else st.depth

/-- Whether a separator met in this state cuts the text.  Quotation marks and brackets never
do. -/
def Nesting.cuts (separates : Char → Bool) (st : Nesting) (c : Char) : Bool :=
  st.quoting = .outside && st.depth = 0
    && !isQuote c && !opensBracket c && !closesBracket c && separates c

/-- Puts a character in front of the first piece. -/
def consFirst (c : Char) : List (List Char) → List (List Char)
  | [] => [[c]]
  | piece :: pieces => (c :: piece) :: pieces

/-- Cuts a text at the separators that stand outside quotations and brackets. -/
def cutFrom (separates : Char → Bool) : Nesting → List Char → List (List Char)
  | _, [] => [[]]
  | st, c :: cs =>
    if st.cuts separates c then [] :: cutFrom separates st cs
    else consFirst c (cutFrom separates (st.step c) cs)

/-- The pieces between the separators that stand outside quotations and brackets. -/
def cut (separates : Char → Bool) (cs : List Char) : List (List Char) :=
  cutFrom separates {} cs

theorem flatten_consFirst (c : Char) (pieces : List (List Char)) :
    (consFirst c pieces).flatten = c :: pieces.flatten := by
  cases pieces <;> simp [consFirst]

/-- Cutting only leaves separators out. -/
theorem flatten_cutFrom_sublist (separates : Char → Bool) (st : Nesting) (cs : List Char) :
    (cutFrom separates st cs).flatten.Sublist cs := by
  induction cs generalizing st with
  | nil => simp [cutFrom]
  | cons c cs ih =>
    by_cases h : st.cuts separates c = true
    · simpa [cutFrom, h] using (ih st).cons c
    · simpa [cutFrom, h, flatten_consFirst] using ih (st.step c)

end WidgetStyle.Value
