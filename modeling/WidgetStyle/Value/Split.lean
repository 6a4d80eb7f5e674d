import WidgetStyle.Value.Nesting

/-!
# WidgetStyle.Value.Split — lists and words of value text

`splitList` cuts a value at a separator, `splitWords` at ASCII blanks, both outside
quotations and brackets.  List items are trimmed and empty ones are kept, so positions in a list
stay aligned; empty words are left out.

A separator beyond ASCII is compared with single bytes of the UTF-8 text: a separator up to
`U+00FF` can then be found inside other characters, a higher one is never found.  Pieces whose
ends fall inside a character are empty.
-/

namespace WidgetStyle.Value

open Text

/-! ## Separators beyond ASCII -/

/-- Whether a byte goes on a character that began before it. -/
def isContinuation (b : UInt8) : Bool := 0x80 ≤ b && b < 0xC0

/-- Where a byte separator cuts a text: the byte offsets of the separator outside quotations and
brackets, counted from `offset`. -/
def cutOffsets (separator : Nat) : Nesting → Nat → List Char → List Nat
  | _, _, [] => []
  | st, offset, c :: cs =>
    let bytes := (String.singleton c).toUTF8.toList
    let here :=
      if st.quoting = .outside && st.depth = 0 then
        ((List.range bytes.length).zip bytes).filterMap fun (i, b) =>
          if b.toNat = separator then some (offset + i) else none
      else []
    here ++ cutOffsets separator (st.step c) (offset + bytes.length) cs

/-- The bytes from `start` up to `stop` as a text; empty when the ends are out of order or fall
inside a character. -/
def sliceBytes (bytes : List UInt8) (start stop : Nat) : List Char :=
  let splitsChar (i : Nat) : Bool := (bytes[i]?).any isContinuation
  if stop < start || bytes.length < start || splitsChar start || splitsChar stop then []
  else
    match String.fromUTF8? ⟨((bytes.take stop).drop start).toArray⟩ with
    | some s => s.toList
    | none => []

/-- Cuts at byte offsets; after a cut the text goes on two bytes later. -/
def cutAtOffsets (bytes : List UInt8) : Nat → List Nat → List (List Char)
  | start, [] => [sliceBytes bytes start bytes.length]
  | start, stop :: stops => sliceBytes bytes start stop :: cutAtOffsets bytes (stop + 2) stops

/-- Cuts a text at a separator between `U+0080` and `U+00FF`. -/
def cutBytes (separator : Nat) (cs : List Char) : List (List Char) :=
  cutAtOffsets (String.ofList cs).toUTF8.toList 0 (cutOffsets separator {} 0 cs)

/-! ## Lists and words -/

/-- The untrimmed items of a list. -/
def listPieces (separator : Char) (cs : List Char) : List (List Char) :=
  if separator.toNat < 0x80 then cut (· == separator) cs
  else if separator.toNat < 0x100 then cutBytes separator.toNat cs
  else [cs]

/-- The items of a list, trimmed.  A blank text has no items. -/
def splitList (separator : Char) (cs : List Char) : List (List Char) :=
  if cs.all isBlank then [] else (listPieces separator cs).map trim

/-- The words of a value. -/
def splitWords (cs : List Char) : List (List Char) :=
  (cut isAsciiBlank cs).filter fun piece => !piece.isEmpty

/-- The items of a list that are not empty. -/
def listItems (value : String) : List String :=
  ((splitList ',' value.toList).filter fun item => !item.isEmpty).map String.ofList

end WidgetStyle.Value
