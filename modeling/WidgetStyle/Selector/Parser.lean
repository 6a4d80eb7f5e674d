import WidgetStyle.Text
import WidgetStyle.Selector.Basic

/-!
# WidgetStyle.Selector.Parser — reading selectors

Reading never fails.  The text is brought to its normal form, with runs of blanks collapsed, and
cut into marks; marks that mean nothing are skipped.  A combinator in front of the first compound
and one behind the last are dropped.

`Selector.parse` reads one chain and `Selector.parseList` a list separated by commas, from which
empty chains are left out.
-/

namespace WidgetStyle

open Text

/-! ## Marks -/

/-- What a selector text is made of. -/
inductive SelectorMark where
  | combinator (c : Combinator)
  | gap
  | simple (s : SimpleSelector)
  | skipped
  deriving DecidableEq, Repr

namespace SelectorMark

/-- The characters of an identifier: ASCII letters and digits, `-`, `_` and all beyond ASCII. -/
def isIdentChar (c : Char) : Bool := isWordChar c || 0x80 ≤ c.toNat

/-- The identifier at the front of a text. -/
def ident (cs : List Char) : List Char := cs.takeWhile isIdentChar

/-- A named simple selector; without a name there is nothing to ask for. -/
def named (build : String → SimpleSelector) (name : List Char) : SelectorMark :=
  if name.isEmpty then .skipped else .simple (build (String.ofList name))

/-- The number of characters up to and with the parenthesis that closes the first one; the number
given counts the parentheses open before. -/
def groupExtent : Nat → Nat → List Char → Nat
  | _, count, [] => count
  | depth, count, c :: cs =>
    if c = '(' then groupExtent (depth + 1) (count + 1) cs
    else if c = ')' then
      if depth ≤ 1 then count + 1 else groupExtent (depth - 1) (count + 1) cs
    else groupExtent depth (count + 1) cs

/-- What follows a colon: the mark, and its number of characters.  Unknown names and names with
arguments are skipped. -/
def pseudo (cs : List Char) : SelectorMark × Nat :=
  let colon := if cs.head? = some ':' then 1 else 0
  let name := ident (cs.drop colon)
  let count := colon + name.length
  let more := cs.drop count
  if more.head? = some '(' then (.skipped, count + groupExtent 0 0 more)
  else
    match PseudoClass.ofName? (String.ofList name) with
    | some p => (.simple (.pseudo p), count)
    | none => (.skipped, count)

/-- What follows the equals sign of an attribute: the value with the number of characters.  A
value in quotation marks goes on to the same mark, another one to a blank or `]`. -/
def attributeValue (cs : List Char) : List Char × Nat :=
  let lead := (cs.takeWhile isAsciiBlank).length
  let cs := cs.drop lead
  match cs with
  | [] => ([], lead)
  | c :: more =>
    if isQuote c then
      let value := more.takeWhile (· != c)
      (value, lead + 1 + value.length + if (more.drop value.length).isEmpty then 0 else 1)
    else
      let value := cs.takeWhile fun d => !isAsciiBlank d && d != ']'
      (value, lead + value.length)

/-- What follows an opening square bracket: the mark, and the number of characters up to and with
the closing bracket.  Whatever stands between the name or value and the bracket is dropped. -/
def bracketed (cs : List Char) : SelectorMark × Nat :=
  let lead := (cs.takeWhile isAsciiBlank).length
  let name := ident (cs.drop lead)
  let afterName := lead + name.length
  let count := afterName + ((cs.drop afterName).takeWhile isAsciiBlank).length
  let (value, count) := match cs.drop count with
    | '=' :: more =>
      let (value, n) := attributeValue more
      (some value, count + 1 + n)
    | _ => (none, count)
  let junk := ((cs.drop count).takeWhile (· != ']')).length
  let total := count + junk + if (cs.drop (count + junk)).isEmpty then 0 else 1
  let lowered := name.map Char.toLower
  match value with
  | some value => (named (fun name => .attributeIs name (String.ofList value)) lowered, total)
  | none => (named .hasAttribute lowered, total)

/-- The mark at the front of `c :: cs`, with its number of characters after `c`. -/
def first (c : Char) (cs : List Char) : SelectorMark × Nat :=
  if isAsciiBlank c then (.gap, 0)
  else if c = '*' then (.simple .universal, 0)
  else if c = '.' then (named .hasClass (ident cs), (ident cs).length)
  else if c = '#' then (named .hasId (ident cs), (ident cs).length)
  else if c = '[' then bracketed cs
  else if c = ':' then pseudo cs
  else if c = '>' then (.combinator .child, 0)
  else if c = '+' then (.combinator .adjacentSibling, 0)
  else if c = '~' then (.combinator .generalSibling, 0)
  else if isIdentChar c then
    (named .hasTag ((c :: ident cs).map Char.toLower), (ident cs).length)
  else (.skipped, 0)

/-- The marks of a text, behind those already found (in reverse), after as many characters as the
first argument says. -/
def readFrom : Nat → List Char → List SelectorMark → List SelectorMark
  | _, [], found => found.reverse
  | n + 1, _ :: cs, found => readFrom n cs found
  | 0, c :: cs, found =>
    let (mark, n) := first c cs
    readFrom n cs (mark :: found)

/-- The marks of a text. -/
def read (cs : List Char) : List SelectorMark := readFrom 0 cs []

end SelectorMark

/-! ## Chains -/

/-- A chain under construction.  Finished links and the simple selectors of the compound being
read are in reverse; `joint` is the combinator in front of that compound and `pending` the one
met since. -/
structure SelectorDraft where
  links : List (Option Combinator × Compound) := []
  simples : List SimpleSelector := []
  joint : Option Combinator := none
  pending : Option Combinator := none

namespace SelectorDraft

/-- Ends the compound being read, if it has a simple selector. -/
def close (d : SelectorDraft) : SelectorDraft :=
  if d.simples.isEmpty then d
  else { d with links := (d.joint, ⟨d.simples.reverse⟩) :: d.links, simples := [], joint := none }

/-- The draft after one more mark. -/
def step (d : SelectorDraft) : SelectorMark → SelectorDraft
  | .combinator c => { d.close with pending := some c }
  | .gap =>
    let d := d.close
    if d.pending.isNone && !d.links.isEmpty then { d with pending := some .descendant } else d
  | .simple s =>
    if d.simples.isEmpty then
      { d with
        simples := [s]
        joint := if d.links.isEmpty then none else some (d.pending.getD .descendant)
        pending := none }
    else { d with simples := s :: d.simples }
  | .skipped => d

/-- The selector of a finished draft. -/
def finish (d : SelectorDraft) (text : String) : Selector :=
  match d.close.links.reverse with
  | [] => ⟨⟨[]⟩, [], text⟩
  | (_, first) :: rest =>
    ⟨first, rest.map fun (joint, c) => (joint.getD .descendant, c), text⟩

end SelectorDraft

namespace Selector

/-- The normal form of a selector text: its words joined by single spaces. -/
def normalText (s : String) : String := String.ofList (collapseBlanks s.toList)

/-- Reads one chain. -/
def parse (s : String) : Selector :=
  let text := collapseBlanks s.toList
  ((SelectorMark.read text).foldl SelectorDraft.step {}).finish (String.ofList text)

/-- Reads a list of chains separated by commas; empty ones are left out. -/
def parseList (s : String) : List Selector :=
  ((splitAt ',' s.toList []).map fun part => parse (String.ofList part)).filter
    fun selector => !selector.isEmpty

end Selector

end WidgetStyle
