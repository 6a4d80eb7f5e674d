import WidgetStyle.Value.Split

/-!
# WidgetStyle.Value.Call — function calls and quoted text

A call is `name(argument, argument, ...)` and nothing after it.  Arguments are separated by commas
outside quotations and brackets; one that stands in quotation marks loses them.
-/

namespace WidgetStyle.Value

open Text

/-! ## Quotation marks -/

/-- The text between two equal quotation marks that stand at its ends. -/
def unquote? (cs : List Char) : Option (List Char) :=
  match cs with
  | first :: more =>
    if isQuote first && more.getLast? = some first then some more.dropLast else none
  | [] => none

theorem unquote?_sublist {cs inner : List Char} (h : unquote? cs = some inner) :
    inner.Sublist cs := by
  cases cs with
  | nil => simp [unquote?] at h
  | cons first more =>
    simp only [unquote?] at h
    split at h
    · cases h
      exact (List.dropLast_sublist more).cons first
    · cases h

/-! ## Calls -/

/-- An argument of a call, without its quotation marks when it had some. -/
structure Argument where
  text : String
  quoted : Bool
  deriving DecidableEq, Repr

/-- A call with its name in lower case. -/
structure Call where
  name : String
  arguments : List Argument
  deriving DecidableEq, Repr

/-- The text of an argument, by position. -/
def Call.argument? (call : Call) (i : Nat) : Option String :=
  (call.arguments[i]?).map Argument.text

/-- The argument that a piece between commas stands for. -/
def Argument.ofPiece (piece : List Char) : Argument :=
  match unquote? piece with
  | some inner => ⟨String.ofList inner, true⟩
  | none => ⟨String.ofList piece, false⟩

/-- Whether a parenthesis opened before the text is still open at its end, outside quotations.
The number counts the parentheses open so far. -/
def staysOpen : Quoting → Nat → List Char → Bool
  | _, _, [] => true
  | quoting, depth, c :: cs =>
    if quoting = .outside && c = '(' then staysOpen quoting (depth + 1) cs
    else if quoting = .outside && c = ')' then
      if depth ≤ 1 then false else staysOpen quoting (depth - 1) cs
    else staysOpen (quoting.step c) depth cs

/-- Splits `name(inner)` into its name and what is between the outer parentheses. -/
def callParts? (cs : List Char) : Option (List Char × List Char) :=
  match cs.dropWhile (· != '(') with
  | [] => none
  | _ :: body =>
    if body.getLast? = some ')' then some (cs.takeWhile (· != '('), body.dropLast) else none

/-- Reads a text that is a single call. -/
def Call.parse? (cs : List Char) : Option Call :=
  match callParts? (trim cs) with
  | none => none
  | some (front, inner) =>
    let name := trim front
    if name.isEmpty || !name.all isWordChar || !staysOpen .outside 1 inner then none
    else some ⟨lower (String.ofList name), (splitList ',' inner).map Argument.ofPiece⟩

end WidgetStyle.Value
