import WidgetStyle.Sheet.Stylesheet

/-!
# WidgetStyle.Loading — style sheets from files

A file is read as bytes, or found missing.  Its bytes have to be UTF-8; nothing else about them
can go wrong.
-/

namespace WidgetStyle

/-- Why a style sheet file could not be loaded. -/
inductive LoadError where
  | missing
  | notUtf8
  deriving DecidableEq, Repr

/-- What is said about a file that could not be loaded, whatever the cause. -/
def LoadError.message (_ : LoadError) (path : String) : String := "reading stylesheet " ++ path

/-- The style sheet of a file with these contents; `none` stands for a missing file. -/
def Stylesheet.ofFile (r : Registry) (contents? : Option ByteArray) :
    Except LoadError Stylesheet :=
  match contents? with
  | none => .error .missing
  | some bytes =>
    match String.fromUTF8? bytes with
    | none => .error .notUtf8
    | some text => .ok (Stylesheet.parse r text)

end WidgetStyle
