import WidgetStyle.Selector.Parser
import WidgetStyle.Value.Split

/-!
# WidgetStyle.Selector.Cursor — reading selectors byte by byte

`Selector.parse` reads the characters of a text.  Here the same selectors are read from the bytes of
the text in UTF-8, with a cursor that goes on by one byte at a time.  What the cursor looks for is
ASCII, and every byte beyond ASCII belongs to names.  A name or value is the slice between two places
of the cursor.  It is decoded with `U+FFFD` in place of what is no UTF-8 (`Text.decodeBytes`), and the
cursor keeps a record of all slices that have been decoded.

Whatever the bytes are, a step takes the byte at the cursor or finds none
(`SelectorCursor.next_cases`), so reading comes to an end (`SelectorCursor.read`).
-/

namespace WidgetStyle

open Text

/-! ## Bytes as text -/

namespace Text

/-- Whether a byte can stand second in a character of several bytes.  Behind `E0`, `ED`, `F0` and `F4`
fewer bytes can: none that make a longer form of a character than needed, a surrogate, or a number
above `10FFFF`. -/
def canFollow (first second : UInt8) : Bool :=
  if first = 0xE0 then 0xA0 ≤ second && second < 0xC0
  else if first = 0xED then 0x80 ≤ second && second < 0xA0
  else if first = 0xF0 then 0x90 ≤ second && second < 0xC0
  else if first = 0xF4 then 0x80 ≤ second && second < 0x90
  else 0xC2 ≤ first && first < 0xF4 && Value.isContinuation second

/-- The number of bytes that are replaced together where no character stands: as many as a character
could begin with, and one at least. -/
def brokenExtent : List UInt8 → Nat
  | first :: second :: more =>
    if canFollow first second then if more.head?.any Value.isContinuation then 3 else 2 else 1
  | _ => 1

/-- The characters of bytes in UTF-8, after as many bytes as the first argument says; `none` stands
for bytes that are replaced. -/
def decodeFrom : Nat → List UInt8 → List (Option Char)
  | _, [] => []
  | n + 1, _ :: bytes => decodeFrom n bytes
  | 0, byte :: bytes =>
    match (byte :: bytes).toByteArray.utf8DecodeChar? 0 with
    | some c => some c :: decodeFrom (c.utf8Size - 1) bytes
    | none => none :: decodeFrom (brokenExtent (byte :: bytes) - 1) bytes

/-- The characters of bytes in UTF-8. -/
def decodeBytes (bytes : List UInt8) : List (Option Char) := decodeFrom 0 bytes

/-- The text of bytes, with a replacement character in place of what is no UTF-8. -/
def lossy (bytes : List UInt8) : List Char :=
  (decodeBytes bytes).map fun c? => c?.getD '\uFFFD'

/-- Three bytes that a character of four could begin with are replaced together. -/
example : lossy [0x48, 0xF0, 0x90, 0x80, 0x57, 0xC3, 0xA9] = ['H', '\uFFFD', 'W', 'é'] := by
  decide +kernel

end Text

/-! ## The cursor -/

/-- A part of a text in bytes, from one offset up to another. -/
structure Slice where
  start : Nat
  stop : Nat
  deriving DecidableEq, Repr

/-- The bytes of a slice. -/
def Slice.bytes (slice : Slice) (bytes : List UInt8) : List UInt8 :=
  (bytes.take slice.stop).drop slice.start

/-- A place in the bytes of a text, with the slices decoded so far, the last one first. -/
structure SelectorCursor where
  bytes : List UInt8
  index : Nat
  decoded : List Slice
  deriving DecidableEq, Repr

namespace SelectorCursor

/-- The cursor at the start of a text. -/
def start (text : String) : SelectorCursor := ⟨text.toUTF8.data.toList, 0, []⟩

/-- The byte at the cursor, as the character of its number. -/
def peek? (s : SelectorCursor) : Option Char := s.bytes[s.index]?.map Char.ofUInt8

/-- The cursor one byte further. -/
def bump (s : SelectorCursor) : SelectorCursor := { s with index := s.index + 1 }

theorem index_lt_of_peek? {s : SelectorCursor} {c : Char} (h : s.peek? = some c) :
    s.index < s.bytes.length := by
  obtain ⟨b, hb, -⟩ := Option.map_eq_some_iff.mp h
  exact (List.getElem?_eq_some_iff.mp hb).1

theorem left_bump_lt {s : SelectorCursor} {c : Char} (h : s.peek? = some c) :
    s.bump.bytes.length - s.bump.index < s.bytes.length - s.index :=
  Nat.sub_lt_sub_left (index_lt_of_peek? h) (Nat.lt_succ_self s.index)

/-- Passes by the byte at the cursor, if there is one. -/
def passByte (s : SelectorCursor) : SelectorCursor := if s.peek?.isSome then s.bump else s

/-- Passes by the bytes that satisfy `p`. -/
def skipWhile (p : Char → Bool) (s : SelectorCursor) : SelectorCursor :=
  match _h : s.peek? with
  | some c => if p c then skipWhile p s.bump else s
  | none => s
termination_by s.bytes.length - s.index
decreasing_by exact left_bump_lt _h

/-- Passes by ASCII blanks. -/
def skipBlanks (s : SelectorCursor) : SelectorCursor := s.skipWhile isAsciiBlank

/-- Passes by a group up to the parenthesis that closes the first one; the number given counts the
parentheses open before. -/
def skipGroup (depth : Nat) (s : SelectorCursor) : SelectorCursor :=
  match _h : s.peek? with
  | some c =>
    if c = '(' then skipGroup (depth + 1) s.bump
    else if c = ')' then if depth ≤ 1 then s.bump else skipGroup (depth - 1) s.bump
    else skipGroup depth s.bump
  | none => s
termination_by s.bytes.length - s.index
decreasing_by all_goals exact left_bump_lt _h

/-- Decodes the slice that ends at the cursor. -/
def cut (start : Nat) (s : SelectorCursor) : List Char × SelectorCursor :=
  let slice : Slice := ⟨start, s.index⟩
  (lossy (slice.bytes s.bytes), { s with decoded := slice :: s.decoded })

/-- Decodes the bytes that satisfy `p`. -/
def consumeWhile (p : Char → Bool) (s : SelectorCursor) : List Char × SelectorCursor :=
  (s.skipWhile p).cut s.index

/-- Reads a name. -/
def consumeIdent (s : SelectorCursor) : List Char × SelectorCursor :=
  s.consumeWhile SelectorMark.isIdentChar

/-! ## Marks -/

/-- Reads a class or an id from its sign on. -/
def consumeNamed (build : String → SimpleSelector) (s : SelectorCursor) :
    SelectorMark × SelectorCursor :=
  let (name, s) := s.bump.consumeIdent
  (SelectorMark.named build name, s)

/-- Passes by a colon. -/
def passColon (s : SelectorCursor) : SelectorCursor := if s.peek? = some ':' then s.bump else s

/-- Reads a pseudo-class from its first colon on.  Unknown names and names with arguments are
skipped. -/
def consumePseudo (s : SelectorCursor) : SelectorMark × SelectorCursor :=
  let (name, s) := s.bump.passColon.consumeIdent
  if s.peek? = some '(' then (.skipped, s.skipGroup 0)
  else ((PseudoClass.ofName? (String.ofList name)).elim .skipped fun p => .simple (.pseudo p), s)

/-- Reads the value of an attribute behind its equals sign. -/
def consumeValue (s : SelectorCursor) : List Char × SelectorCursor :=
  let s := s.skipBlanks
  match s.peek?.filter isQuote with
  | some quote =>
    let (value, s) := s.bump.consumeWhile (· != quote)
    (value, s.passByte)
  | none => s.consumeWhile fun c => !isAsciiBlank c && c != ']'

/-- Reads an attribute from its opening bracket on.  What stands between the name or value and the
closing bracket is dropped. -/
def consumeAttribute (s : SelectorCursor) : SelectorMark × SelectorCursor :=
  let (name, s) := s.bump.skipBlanks.consumeIdent
  let name := name.map Char.toLower
  let s := s.skipBlanks
  if s.peek? = some '=' then
    let (value, s) := s.bump.consumeValue
    (SelectorMark.named (fun name => .attributeIs name (String.ofList value)) name,
      (s.skipWhile (· != ']')).passByte)
  else (SelectorMark.named .hasAttribute name, (s.skipWhile (· != ']')).passByte)

/-- Reads the mark that begins with `c`, the byte at the cursor. -/
def consume (c : Char) (s : SelectorCursor) : SelectorMark × SelectorCursor :=
  if c = '*' then (.simple .universal, s.bump)
  else if c = '.' then s.consumeNamed .hasClass
  else if c = '#' then s.consumeNamed .hasId
  else if c = '[' then s.consumeAttribute
  else if c = ':' then s.consumePseudo
  else if c = '>' then (.combinator .child, s.bump)
  else if c = '+' then (.combinator .adjacentSibling, s.bump)
  else if c = '~' then (.combinator .generalSibling, s.bump)
  else if SelectorMark.isIdentChar c then
    let (name, s) := s.consumeIdent
    (.simple (.hasTag (String.ofList (name.map Char.toLower))), s)
  else (.skipped, s.bump)

/-- Reads the next mark.  Blanks are one mark together, and none at the end. -/
def next (s : SelectorCursor) : Option SelectorMark × SelectorCursor :=
  let t := s.skipBlanks
  if t.index ≠ s.index then (t.peek?.map fun _ => .gap, t)
  else
    match t.peek? with
    | some c =>
      let (mark, t) := t.consume c
      (some mark, t)
    | none => (none, t)

/-! ## Going on -/

/-- A cursor is behind another one in the same bytes, and keeps what that one has decoded. -/
structure Precedes (s t : SelectorCursor) : Prop where
  bytes_eq : t.bytes = s.bytes
  index_le : s.index ≤ t.index
  inside : s.index ≤ s.bytes.length → t.index ≤ s.bytes.length
  decoded : s.decoded <:+ t.decoded

namespace Precedes

variable {s t u : SelectorCursor}

theorem refl (s : SelectorCursor) : Precedes s s := ⟨rfl, Nat.le_refl _, id, List.suffix_rfl⟩

theorem trans (h : Precedes s t) (h' : Precedes t u) : Precedes s u where
  bytes_eq := h'.bytes_eq.trans h.bytes_eq
  index_le := Nat.le_trans h.index_le h'.index_le
  inside := fun hs => h.bytes_eq ▸ h'.inside (h.bytes_eq ▸ h.inside hs)
  decoded := h.decoded.trans h'.decoded

theorem bump {c : Char} (h : s.peek? = some c) : Precedes s s.bump :=
  ⟨rfl, Nat.le_succ _, fun _ => index_lt_of_peek? h, List.suffix_rfl⟩

theorem passByte (s : SelectorCursor) : Precedes s s.passByte := by
  rw [SelectorCursor.passByte]
  split
  · next hsome => exact .bump (Option.some_get hsome).symm
  · exact .refl s

theorem skipWhile (p : Char → Bool) (s : SelectorCursor) : Precedes s (s.skipWhile p) := by
  fun_induction SelectorCursor.skipWhile with
  | case1 s c h _ ih => exact (Precedes.bump h).trans ih
  | case2 s c _ _ => exact .refl s
  | case3 s _ => exact .refl s

theorem skipGroup (depth : Nat) (s : SelectorCursor) : Precedes s (s.skipGroup depth) := by
  fun_induction SelectorCursor.skipGroup with
  | case1 _ _ h ih => exact (Precedes.bump h).trans ih
  | case2 _ _ _ h => exact .bump h
  | case3 _ _ _ h _ ih => exact (Precedes.bump h).trans ih
  | case4 _ _ _ h _ _ ih => exact (Precedes.bump h).trans ih
  | case5 _ s => exact .refl s

theorem cut (start : Nat) (s : SelectorCursor) : Precedes s (s.cut start).2 :=
  ⟨rfl, Nat.le_refl _, id, List.suffix_cons _ _⟩

theorem consumeWhile (p : Char → Bool) (s : SelectorCursor) : Precedes s (s.consumeWhile p).2 :=
  (skipWhile p s).trans (cut _ _)

theorem passColon (s : SelectorCursor) : Precedes s s.passColon := by
  rw [SelectorCursor.passColon]
  split
  · next hcolon => exact .bump hcolon
  · exact .refl s

theorem consumePseudo (s : SelectorCursor) : Precedes s.bump s.consumePseudo.2 := by
  have hname := (passColon s.bump).trans (consumeWhile SelectorMark.isIdentChar _)
  rw [SelectorCursor.consumePseudo]
  dsimp only
  split
  · exact hname.trans (skipGroup _ _)
  · exact hname

theorem consumeValue (s : SelectorCursor) : Precedes s s.consumeValue.2 := by
  have hblanks : Precedes s s.skipBlanks := skipWhile _ s
  rw [SelectorCursor.consumeValue]
  split
  · next quote hquote =>
      have hpeek := (Option.filter_eq_some_iff.mp hquote).1
      exact hblanks.trans ((bump hpeek).trans ((consumeWhile _ _).trans (passByte _)))
  · exact hblanks.trans (consumeWhile _ _)

theorem consumeAttribute (s : SelectorCursor) : Precedes s.bump s.consumeAttribute.2 := by
  have hname : Precedes s.bump s.bump.skipBlanks.consumeIdent.2.skipBlanks :=
    (skipWhile _ _).trans ((consumeWhile _ _).trans (skipWhile _ _))
  have hclose (t : SelectorCursor) : Precedes t (t.skipWhile (· != ']')).passByte :=
    (skipWhile _ t).trans (passByte _)
  rw [SelectorCursor.consumeAttribute]
  dsimp only
  split
  · next hsign => exact hname.trans ((bump hsign).trans ((consumeValue _).trans (hclose _)))
  · exact hname.trans (hclose _)

/-- Whatever satisfies `p` is passed by. -/
theorem skipWhile_of_peek? {p : Char → Bool} {s : SelectorCursor} {c : Char} (h : s.peek? = some c)
    (hc : p c = true) : Precedes s.bump (s.skipWhile p) := by
  rw [SelectorCursor.skipWhile]
  split
  · next d hd =>
      obtain rfl := Option.some.inj (h.symm.trans hd)
      rw [if_pos hc]
      exact skipWhile p s.bump
  · next hnone => exact absurd (h.symm.trans hnone) nofun

/-- Every mark takes the byte that it begins with. -/
theorem consume {c : Char} (h : s.peek? = some c) : Precedes s.bump (s.consume c).2 := by
  have hsign : Precedes s.bump s.bump := .refl _
  have hnamed (build : String → SimpleSelector) : Precedes s.bump (s.consumeNamed build).2 :=
    consumeWhile _ _
  rw [SelectorCursor.consume]
  split; · exact hsign
  split; · exact hnamed _
  split; · exact hnamed _
  split; · exact consumeAttribute s
  split; · exact consumePseudo s
  split; · exact hsign
  split; · exact hsign
  split; · exact hsign
  split
  · next hident => exact (skipWhile_of_peek? h hident).trans (cut _ _)
  · exact hsign

end Precedes

section Next

variable {s t : SelectorCursor}

/-- Nothing is passed by, or the byte at the cursor is. -/
theorem skipWhile_cases (p : Char → Bool) (s : SelectorCursor) :
    s.skipWhile p = s ∨ ∃ c, s.peek? = some c ∧ Precedes s.bump (s.skipWhile p) := by
  cases hpeek : s.peek? with
  | none =>
      refine .inl ?_
      rw [skipWhile]
      split
      · next c hc => exact absurd (hc.symm.trans hpeek) nofun
      · rfl
  | some c =>
      by_cases hc : p c = true
      · exact .inr ⟨c, rfl, .skipWhile_of_peek? hpeek hc⟩
      · refine .inl ?_
        rw [skipWhile]
        split
        · next d hd =>
            obtain rfl := Option.some.inj (hpeek.symm.trans hd)
            rw [if_neg hc]
        · rfl

/-- At the end there is no mark; everywhere else a step takes the byte at the cursor. -/
theorem next_cases (s : SelectorCursor) :
    (s.peek? = none ∧ s.next = (none, s)) ∨ ∃ c, s.peek? = some c ∧ Precedes s.bump s.next.2 := by
  rw [next]
  rcases skipWhile_cases isAsciiBlank s with hnone | ⟨c, hc, hblanks⟩
  · have hstay : s.skipBlanks = s := hnone
    simp only [hstay, ne_eq, not_true_eq_false, if_false]
    cases hpeek : s.peek? with
    | none => exact .inl ⟨rfl, rfl⟩
    | some c => exact .inr ⟨c, rfl, .consume hpeek⟩
  · have hmoved : s.skipBlanks.index ≠ s.index := Nat.ne_of_gt hblanks.index_le
    dsimp only
    rw [if_pos hmoved]
    exact .inr ⟨c, hc, hblanks⟩

theorem left_next_lt {mark : SelectorMark} (h : s.next = (some mark, t)) :
    t.bytes.length - t.index < s.bytes.length - s.index := by
  rcases next_cases s with ⟨-, hend⟩ | ⟨c, hc, hon⟩
  · exact absurd (h.symm.trans hend) nofun
  · rw [h] at hon
    have hlt := index_lt_of_peek? hc
    have hle : s.index + 1 ≤ t.index := hon.index_le
    rw [hon.bytes_eq]
    exact Nat.sub_lt_sub_left hlt hle

end Next

/-! ## Reading -/

/-- Reads all marks from the cursor on. -/
def read (s : SelectorCursor) : List SelectorMark × SelectorCursor :=
  match _h : s.next with
  | (some mark, t) =>
    let (marks, u) := read t
    (mark :: marks, u)
  | (none, t) => ([], t)
termination_by s.bytes.length - s.index
decreasing_by exact left_next_lt _h

end SelectorCursor

/-- Reads one chain byte by byte. -/
def Selector.parseBytes (s : String) : Selector :=
  let text := normalText s
  let (marks, _) := (SelectorCursor.start text).read
  (marks.foldl SelectorDraft.step {}).finish text

end WidgetStyle
