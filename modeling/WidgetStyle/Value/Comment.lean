import WidgetStyle.Text

/-!
# WidgetStyle.Value.Comment — comments in value text

A comment runs from `/*` to the next `*/`, or to the end of the text, and counts as one space.
Inside quotation marks `/*` is ordinary text; a backslash there keeps the next character from
ending the quotation.
-/

namespace WidgetStyle.Value

open Text

/-- Where a walk through a text stands with respect to quotations and comments.  In a comment it
is remembered whether the last character was an asterisk of the comment's inside. -/
inductive CommentMode where
  | plain
  | quoted (quote : Char)
  | escaped (quote : Char)
  | comment (afterAsterisk : Bool)
  deriving DecidableEq, Repr

/-- Replaces every comment by one space, starting in the given mode. -/
def blankFrom : CommentMode → List Char → List Char
  | _, [] => []
  | .plain, '/' :: '*' :: cs => ' ' :: blankFrom (.comment false) cs
  | .plain, c :: cs => c :: blankFrom (if isQuote c then .quoted c else .plain) cs
  | .quoted quote, c :: cs =>
    c :: blankFrom
      (if c = '\\' then .escaped quote else if c = quote then .plain else .quoted quote) cs
  | .escaped quote, c :: cs => c :: blankFrom (.quoted quote) cs
  | .comment afterAsterisk, c :: cs =>
    blankFrom (if afterAsterisk && c = '/' then .plain else .comment (c = '*')) cs

/-- Replaces every comment outside quotation marks by one space. -/
def blankComments (cs : List Char) : List Char := blankFrom .plain cs

end WidgetStyle.Value
