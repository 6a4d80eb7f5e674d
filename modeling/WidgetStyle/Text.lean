/-!
# WidgetStyle.Text — blanks, trimming and letter case

The character classes that style text is read with, and the few operations on whole texts that
every other module shares.  Two sets of blanks are kept apart: the Unicode property White_Space
(`isBlank`), which trimming and word splitting use, and the five ASCII blanks (`isAsciiBlank`),
which separate the words of a value.  Letter case is ASCII only: `lower` touches `A` to `Z` and
nothing else.

Scanners work on lists of characters; `String` is what types hold.
-/

namespace WidgetStyle.Text

/-! ## Character classes -/

/-- The characters with the Unicode property White_Space. -/
def isBlank (c : Char) : Bool :=
  let n := c.toNat
  (0x09 ≤ n && n ≤ 0x0D) || n == 0x20 || n == 0x85 || n == 0xA0 || n == 0x1680
    || (0x2000 ≤ n && n ≤ 0x200A) || n == 0x2028 || n == 0x2029 || n == 0x202F
    || n == 0x205F || n == 0x3000

/-- Space, tab, line feed, form feed and carriage return; the vertical tab is not one of them. -/
def isAsciiBlank (c : Char) : Bool :=
  c == ' ' || c == '\t' || c == '\n' || c == '\x0c' || c == '\r'

/-- Letters and digits of ASCII. -/
def isAsciiAlphanumeric (c : Char) : Bool :=
  ('a' ≤ c && c ≤ 'z') || ('A' ≤ c && c ≤ 'Z') || ('0' ≤ c && c ≤ '9')

/-- The ASCII characters of a name: letters, digits, `-` and `_`. -/
def isWordChar (c : Char) : Bool :=
  isAsciiAlphanumeric c || c == '-' || c == '_'

/-- Either kind of quotation mark. -/
def isQuote (c : Char) : Bool := c == '"' || c == '\''

/-- Every ASCII blank has the property White_Space. -/
theorem isBlank_of_isAsciiBlank {c : Char} (h : isAsciiBlank c = true) : isBlank c = true := by
  simp only [isAsciiBlank, Bool.or_eq_true, beq_iff_eq] at h
  rcases h with (((rfl | rfl) | rfl) | rfl) | rfl <;> decide

/-! ## Trimming -/

/-- The text without its leading blanks. -/
def trimStart (cs : List Char) : List Char := cs.dropWhile isBlank

/-- The text without its trailing blanks. -/
def trimEnd (cs : List Char) : List Char := (cs.reverse.dropWhile isBlank).reverse

/-- The text without the blanks on both sides. -/
def trim (cs : List Char) : List Char := trimEnd (trimStart cs)

theorem trimStart_sublist (cs : List Char) : (trimStart cs).Sublist cs :=
  List.dropWhile_sublist _

theorem trimEnd_sublist (cs : List Char) : (trimEnd cs).Sublist cs := by
  have h := (List.dropWhile_sublist isBlank (l := cs.reverse)).reverse
  simpa [trimEnd] using h

/-- Trimming only leaves characters out. -/
theorem trim_sublist (cs : List Char) : (trim cs).Sublist cs :=
  (trimEnd_sublist _).trans (trimStart_sublist cs)

/-- `trim` on strings. -/
def trimmed (s : String) : String := String.ofList (trim s.toList)

/-! ## Words -/

/-- Walks to the next blank, with the current word and the finished words in reverse. -/
def wordsFrom : List Char → List Char → List (List Char) → List (List Char)
  | [], word, done => (if word.isEmpty then done else word.reverse :: done).reverse
  | c :: cs, word, done =>
    if isBlank c then
      wordsFrom cs [] (if word.isEmpty then done else word.reverse :: done)
    else wordsFrom cs (c :: word) done

/-- The maximal runs of characters that are not blank. -/
def words (cs : List Char) : List (List Char) := wordsFrom cs [] []

/-- The words of a text joined by single spaces. -/
def collapseBlanks (cs : List Char) : List Char := [' '].intercalate (words cs)

/-! ## Letter case -/

/-- ASCII letters in lower case, everything else as it is. -/
def lower (s : String) : String := String.ofList (s.toList.map Char.toLower)

/-- Equality up to the case of ASCII letters. -/
def sameLetters (a b : String) : Bool := lower a == lower b

@[simp] theorem toList_lower (s : String) : (lower s).toList = s.toList.map Char.toLower := by
  simp [lower]

@[simp] theorem toList_trimmed (s : String) : (trimmed s).toList = trim s.toList := by
  simp [trimmed]

/-! ## Pieces of a text -/

/-- Splits at every `separator`; the separators are left out and empty pieces are kept. -/
def splitAt (separator : Char) : List Char → List Char → List (List Char)
  | [], piece => [piece.reverse]
  | c :: cs, piece =>
    if c == separator then piece.reverse :: splitAt separator cs []
    else splitAt separator cs (c :: piece)

/-- The text with `ending` removed from its end, when it ends so. -/
def dropEnding? (ending cs : List Char) : Option (List Char) :=
  if ending.isSuffixOf cs then some (cs.take (cs.length - ending.length)) else none

/-- Whether the name begins with two hyphens, as the names of style variables do. -/
def isVariableName (s : String) : Bool := ['-', '-'].isPrefixOf s.toList

end WidgetStyle.Text
