import WidgetStyle.Text

/-!
# WidgetStyle.Source.Lexeme — the lexemes of style text

Style text falls into lexemes: blanks, comments, names, strings, numbers, addresses, brackets and
single characters.  A lexeme keeps the characters it was read from, so nothing of the text is
lost: the lexemes of a text concatenate to the text (`flatMap_text_lexemes`).  What a name or a
string stands for, with its escapes resolved, is computed from the characters on demand
(`nameValue`, `stringValue`).

How far a lexeme reaches is a number of characters.  `extent` counts them for every kind of run:
it goes through the text and asks at each character whether the run goes on and how many further
characters belong to the same step, so an escape is one step.
-/

namespace WidgetStyle.Source

open Text

/-! ## Extents -/

/-- How many characters a run takes from the front of a text.

`step c rest = some k` takes `c` together with the next `k` characters, and `none` ends the run
before `c`.  The first argument counts characters that are already promised to the run. -/
def extent (step : Char → List Char → Option Nat) : Nat → List Char → Nat
  | _, [] => 0
  | n + 1, _ :: cs => extent step n cs + 1
  | 0, c :: cs =>
    match step c cs with
    | none => 0
    | some k => extent step k cs + 1

theorem extent_le_length (step : Char → List Char → Option Nat) (n : Nat) (cs : List Char) :
    extent step n cs ≤ cs.length := by
  induction cs generalizing n with
  | nil => cases n <;> simp [extent]
  | cons c cs ih =>
    cases n with
    | succ n => simpa [extent] using ih n
    | zero =>
      simp only [extent]
      split
      · simp
      · simpa using ih _

/-- Takes single characters as long as they pass the test. -/
def whileChar (test : Char → Bool) (c : Char) (_ : List Char) : Option Nat :=
  if test c then some 0 else none

/-! ## Character classes -/

/-- Line feed, carriage return and form feed end a line. -/
def isNewline (c : Char) : Bool := c == '\n' || c == '\r' || c == '\x0c'

/-- Whether a text begins with a line end. -/
def startsLine : List Char → Bool
  | c :: _ => isNewline c
  | [] => false

/-- The characters that can begin a name: letters, `_`, the null character and everything beyond
ASCII. -/
def isNameInitial (c : Char) : Bool :=
  ('a' ≤ c && c ≤ 'z') || ('A' ≤ c && c ≤ 'Z') || c == '_' || c == '\x00' || 0x80 ≤ c.toNat

/-- The characters that can go on a name. -/
def isNameChar (c : Char) : Bool :=
  isNameInitial c || ('0' ≤ c && c ≤ '9') || c == '-'

/-- Whether the character is a decimal digit. -/
def isDecimalDigit (c : Char) : Bool := '0' ≤ c && c ≤ '9'

/-- Whether the character is a hexadecimal digit. -/
def isHexDigit (c : Char) : Bool :=
  isDecimalDigit c || ('a' ≤ c && c ≤ 'f') || ('A' ≤ c && c ≤ 'F')

/-- Control characters that cannot stand in an unquoted address. -/
def isNonPrintable (c : Char) : Bool :=
  let n := c.toNat
  (0x01 ≤ n && n ≤ 0x08) || n == 0x0B || (0x0E ≤ n && n ≤ 0x1F) || n == 0x7F

/-! ## Escapes -/

/-- The hexadecimal digits of an escape: at most six. -/
def escapeDigits (cs : List Char) : List Char := (cs.take 6).takeWhile isHexDigit

/-- How many characters after a backslash belong to the escape: up to six hexadecimal digits and
one blank after them, or else a single character. -/
def escapeExtent (cs : List Char) : Nat :=
  match cs with
  | [] => 0
  | _ :: _ =>
    let n := (escapeDigits cs).length
    if n = 0 then 1
    else
      match cs.drop n with
      | '\r' :: '\n' :: _ => n + 2
      | c :: _ => if isAsciiBlank c then n + 1 else n
      | [] => n

/-- The value of a hexadecimal digit. -/
def hexValue (c : Char) : Nat :=
  if isDecimalDigit c then c.toNat - '0'.toNat
  else if 'a' ≤ c && c ≤ 'f' then c.toNat - 'a'.toNat + 10
  else c.toNat - 'A'.toNat + 10

/-- The character that stands for what cannot be represented. -/
def replacement : Char := '\uFFFD'

/-- The character that an escape stands for.  The end of the text, the null character and
numbers that are no character give the replacement character. -/
def escapedChar (cs : List Char) : Char :=
  match cs with
  | [] => replacement
  | c :: _ =>
    match escapeDigits cs with
    | [] => if c = '\x00' then replacement else c
    | digits =>
      let n := digits.foldl (fun n d => 16 * n + hexValue d) 0
      if n = 0 then replacement
      else if n.isValidChar then Char.ofNat n else replacement

/-- Resolves the escapes of a name; the first argument counts characters of an escape that is
already resolved. -/
def nameValueFrom : Nat → List Char → List Char
  | _, [] => []
  | n + 1, _ :: cs => nameValueFrom n cs
  | 0, c :: cs =>
    if c = '\\' then escapedChar cs :: nameValueFrom (escapeExtent cs) cs
    else (if c = '\x00' then replacement else c) :: nameValueFrom 0 cs

/-- What the characters of a name stand for. -/
def nameValue (cs : List Char) : String := String.ofList (nameValueFrom 0 cs)

/-- How many characters a line end takes: a carriage return with its line feed is one line end. -/
def newlineExtent : List Char → Nat
  | '\r' :: '\n' :: _ => 2
  | _ :: _ => 1
  | [] => 0

/-- Resolves the escapes between the quotation marks of a string.  A backslash before a line end
or at the end of the text stands for nothing. -/
def stringValueFrom (quote : Char) : Nat → List Char → List Char
  | _, [] => []
  | n + 1, _ :: cs => stringValueFrom quote n cs
  | 0, c :: cs =>
    if c = quote then []
    else if c = '\\' then
      if startsLine cs then stringValueFrom quote (newlineExtent cs) cs
      else if cs.isEmpty then []
      else escapedChar cs :: stringValueFrom quote (escapeExtent cs) cs
    else (if c = '\x00' then replacement else c) :: stringValueFrom quote 0 cs

/-- What the characters of a string, with its quotation marks, stand for. -/
def stringValue : List Char → String
  | quote :: cs => String.ofList (stringValueFrom quote 0 cs)
  | [] => ""

/-! ## Names, strings, comments and numbers -/

/-- One step of a name: a name character or an escape. -/
def nameStep (c : Char) (cs : List Char) : Option Nat :=
  if isNameChar c then some 0
  else if c = '\\' && !startsLine cs then some (escapeExtent cs)
  else none

/-- The characters of the name at the front of a text. -/
def nameExtent (cs : List Char) : Nat := extent nameStep 0 cs

/-- Whether a text begins with a name.  A hyphen begins a name before another hyphen, an initial
or a backslash. -/
def startsName : List Char → Bool
  | [] => false
  | c :: cs =>
    isNameInitial c || (c == '\\' && !startsLine cs) ||
      (c == '-' && match cs with
        | d :: _ => isNameInitial d || d == '-' || d == '\\'
        | [] => false)

/-- One step inside a string; an unescaped line end stops it. -/
def stringStep (quote c : Char) (cs : List Char) : Option Nat :=
  if c = quote || isNewline c then none
  else if c = '\\' then some (if startsLine cs then newlineExtent cs else escapeExtent cs)
  else some 0

/-- One step inside a comment, which ends before `*/`. -/
def commentStep (c : Char) (cs : List Char) : Option Nat :=
  if c = '*' && cs.head? = some '/' then none else some 0

/-- The digits at the front of a text. -/
def digitExtent (cs : List Char) : Nat := extent (whileChar isDecimalDigit) 0 cs

/-- Whether a text begins with a digit, or with a point and a digit. -/
def startsUnsigned : List Char → Bool
  | '.' :: d :: _ => isDecimalDigit d
  | d :: _ => isDecimalDigit d
  | [] => false

/-- Whether a text begins with a number. -/
def startsNumber : List Char → Bool
  | c :: cs => if c = '+' || c = '-' then startsUnsigned cs else startsUnsigned (c :: cs)
  | [] => false

/-- The exponent at the front of a text: a mark, a sign or none, and at least one digit. -/
def exponentExtent : List Char → Nat
  | mark :: cs =>
    if mark = 'e' || mark = 'E' then
      match cs with
      | c :: more =>
        if isDecimalDigit c then 1 + digitExtent cs
        else if (c = '+' || c = '-') && digitExtent more != 0 then 2 + digitExtent more
        else 0
      | [] => 0
    else 0
  | [] => 0

/-- The number at the front of a text that begins with one, without its unit. -/
def numberExtent (cs : List Char) : Nat :=
  let sign := match cs with
    | c :: _ => if c = '+' || c = '-' then 1 else 0
    | [] => 0
  let whole := digitExtent (cs.drop sign)
  let fraction := match cs.drop (sign + whole) with
    | '.' :: more => if digitExtent more = 0 then 0 else 1 + digitExtent more
    | _ => 0
  let mantissa := sign + whole + fraction
  mantissa + exponentExtent (cs.drop mantissa)

/-! ## Addresses -/

/-- One step of an unquoted address. -/
def addressStep (c : Char) (cs : List Char) : Option Nat :=
  if isAsciiBlank c || c = ')' || c = '(' || isQuote c || isNonPrintable c then none
  else if c = '\\' then (if startsLine cs then none else some (escapeExtent cs))
  else some 0

/-- One step of a broken address, which goes on to the closing parenthesis. -/
def brokenAddressStep (c : Char) (cs : List Char) : Option Nat :=
  if c = ')' then none
  else if c = '\\' && (cs.head? = some ')' || cs.head? = some '\\') then some 1
  else some 0

/-- The characters up to and with the closing parenthesis of a broken address. -/
def brokenAddressExtent (cs : List Char) : Nat :=
  let n := extent brokenAddressStep 0 cs
  if (cs.drop n).isEmpty then n else n + 1

/-- The rest of an unquoted address after `url(` with its closing parenthesis, and whether it is
well formed; `none` when a quoted address follows. -/
def addressExtent? (cs : List Char) : Option (Bool × Nat) :=
  let lead := extent (whileChar isAsciiBlank) 0 cs
  match cs.drop lead with
  | [] => some (true, lead)
  | c :: _ =>
    if isQuote c then none
    else
      let body := lead + extent addressStep 0 (cs.drop lead)
      let gap := body + extent (whileChar isAsciiBlank) 0 (cs.drop body)
      match cs.drop gap with
      | [] => some (true, gap)
      | d :: more =>
        if d = ')' then some (true, gap + 1)
        else some (false, gap + 1 + brokenAddressExtent more)

/-! ## Lexemes -/

/-- The three pairs of brackets. -/
inductive Bracket where
  | round | square | curly
  deriving DecidableEq, Repr

/-- What a lexeme is.  A `function` is a name with its opening parenthesis, and opens a round
block like a parenthesis of its own. -/
inductive Kind where
  | blank | comment | name | atName | hash | string | brokenString
  | address | brokenAddress | number | function
  | opening (b : Bracket) | closing (b : Bracket)
  | colon | semicolon | comma | markupOpen | markupClose
  | other
  deriving DecidableEq, Repr

/-- A lexeme with the characters it was read from. -/
structure Lexeme where
  kind : Kind
  text : List Char
  deriving DecidableEq, Repr

/-- Whether the characters of a name spell `url`, the name that opens an address. -/
def opensAddress (cs : List Char) : Bool := lower (nameValue cs) == "url"

/-- The lexeme at the front of a text that begins with a name. -/
def nameLexeme (cs : List Char) : Kind × Nat :=
  let n := nameExtent cs
  match cs.drop n with
  | '(' :: more =>
    if opensAddress (cs.take n) then
      match addressExtent? more with
      | some (wellFormed, k) => (if wellFormed then .address else .brokenAddress, n + 1 + k)
      | none => (.function, n + 1)
    else (.function, n + 1)
  | _ => (.name, n)

/-- The lexeme at the front of a text that begins with a number: the number with its unit. -/
def numberLexeme (cs : List Char) : Kind × Nat :=
  let n := numberExtent cs
  match cs.drop n with
  | '%' :: _ => (.number, n + 1)
  | more => (.number, if startsName more then n + nameExtent more else n)

/-- The string at the front of a text, after its opening quotation mark. -/
def stringLexeme (quote : Char) (cs : List Char) : Kind × Nat :=
  let n := extent (stringStep quote) 0 cs
  match cs.drop n with
  | [] => (.string, n + 1)
  | c :: _ => if c = quote then (.string, n + 2) else (.brokenString, n + 1)

/-- A lexeme of one character. -/
def singleKind (c : Char) : Kind :=
  if c = '(' then .opening .round
  else if c = '[' then .opening .square
  else if c = '{' then .opening .curly
  else if c = ')' then .closing .round
  else if c = ']' then .closing .square
  else if c = '}' then .closing .curly
  else if c = ':' then .colon
  else if c = ';' then .semicolon
  else if c = ',' then .comma
  else .other

/-- The kind of the lexeme at the front of `c :: cs` and its number of characters. -/
def measure (c : Char) (cs : List Char) : Kind × Nat :=
  if isAsciiBlank c then (.blank, 1 + extent (whileChar isAsciiBlank) 0 cs)
  else if isQuote c then stringLexeme c cs
  else if startsNumber (c :: cs) then numberLexeme (c :: cs)
  else if c = '-' && ['-', '>'].isPrefixOf cs then (.markupClose, 3)
  else if startsName (c :: cs) then nameLexeme (c :: cs)
  else if c = '#' && startsName cs then (.hash, 1 + nameExtent cs)
  else if c = '#' && (cs.head?.any fun d => isDecimalDigit d || d == '-') then
    (.hash, 1 + nameExtent cs)
  else if c = '/' && cs.head? = some '*' then
    (.comment, 2 + extent commentStep 0 (cs.drop 1) + 2)
  else if c = '@' && startsName cs then (.atName, 1 + nameExtent cs)
  else if c = '<' && ['!', '-', '-'].isPrefixOf cs then (.markupOpen, 4)
  else (singleKind c, 1)

/-- The lexeme at the front of `c :: cs`.  It holds at least the character `c`. -/
def firstLexeme (c : Char) (cs : List Char) : Lexeme :=
  let (kind, n) := measure c cs
  ⟨kind, c :: cs.take (n - 1)⟩

/-- The lexemes of a text, after as many characters as the first argument says. -/
def lexemesFrom : Nat → List Char → List Lexeme
  | _, [] => []
  | n + 1, _ :: cs => lexemesFrom n cs
  | 0, c :: cs =>
    firstLexeme c cs :: lexemesFrom ((firstLexeme c cs).text.length - 1) cs

/-- The lexemes of a text. -/
def lexemes (cs : List Char) : List Lexeme := lexemesFrom 0 cs

/-! ## Nothing is lost -/

theorem lexemesFrom_eq (n : Nat) (cs : List Char) :
    lexemesFrom n cs = lexemes (cs.drop n) := by
  induction cs generalizing n with
  | nil => cases n <;> simp [lexemes, lexemesFrom]
  | cons c cs ih =>
    cases n with
    | zero => rfl
    | succ n => simpa [lexemesFrom] using ih n

theorem lexemes_cons (c : Char) (cs : List Char) :
    lexemes (c :: cs)
      = firstLexeme c cs :: lexemes (cs.drop ((firstLexeme c cs).text.length - 1)) := by
  rw [lexemes, lexemesFrom, lexemesFrom_eq]

/-- The first lexeme takes a leading part of the text. -/
theorem firstLexeme_text_append (c : Char) (cs : List Char) :
    (firstLexeme c cs).text ++ cs.drop ((firstLexeme c cs).text.length - 1) = c :: cs := by
  simp only [firstLexeme, List.cons_append, List.length_cons, List.length_take,
    Nat.add_sub_cancel]
  congr 1
  by_cases h : (measure c cs).2 - 1 ≤ cs.length
  · rw [Nat.min_eq_left h, List.take_append_drop]
  · have h' : cs.length ≤ (measure c cs).2 - 1 := by omega
    rw [Nat.min_eq_right h', List.take_of_length_le h', List.drop_length, List.append_nil]

/-- The lexemes of a text concatenate to the text. -/
theorem flatMap_text_lexemes (cs : List Char) : (lexemes cs).flatMap Lexeme.text = cs := by
  induction h : cs.length using Nat.strongRecOn generalizing cs with
  | ind n ih =>
    cases cs with
    | nil => rfl
    | cons c cs =>
      rw [lexemes_cons, List.flatMap_cons, ih _ _ _ rfl, firstLexeme_text_append]
      subst h
      simp only [List.length_drop, List.length_cons]
      omega

end WidgetStyle.Source
