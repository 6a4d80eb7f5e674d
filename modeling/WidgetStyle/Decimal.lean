import WidgetStyle.Double

/-!
# WidgetStyle.Decimal — decimal number text

Numbers as style text writes them.  `readFloat?` reads a decimal or one of the words `inf`,
`infinity` and `nan` into the nearest double, `readNat?` reads a bounded count, and `positional`
writes a double with the fewest digits that read back, without an exponent.

Reading and writing both round through `Double.nearestBits`, so what `shortest` finds is by
construction a decimal that reads back to the same bits.  Long runs of digits are read by halves;
`readDigits_eq` says that this changes nothing.
-/

namespace WidgetStyle.Decimal

open Double

/-! ## Rounding -/

/-- The powers of ten. -/
def tenTo (n : Nat) : Nat := Nat.pow 10 n

/-- The bits of the double nearest to `digits · 10 ^ power`.  Powers far outside the range of
doubles are cut short: the answer is zero or infinity. -/
def scientificBits (digits : Nat) (power : Int) : Nat :=
  if digits = 0 then 0
  else
    let magnitude := power + (Nat.log2 digits : Int) * 30103 / 100000
    if 400 < magnitude then infinityBits
    else if magnitude < -400 then 0
    else nearestBits (digits * tenTo power.toNat) (tenTo (-power).toNat)

/-- The double nearest to `± digits · 10 ^ power`. -/
def nearest (negative : Bool) (digits : Nat) (power : Int) : Float :=
  ofSignBits negative (scientificBits digits power)

/-! ## Reading -/

/-- Whether the character is a decimal digit. -/
def isDigit (c : Char) : Bool := '0' ≤ c && c ≤ '9'

/-- The digit that a character stands for. -/
def digit (c : Char) : Nat := c.toNat - '0'.toNat

/-- The number that a run of digits stands for. -/
def digitsValue (cs : List Char) : Nat := cs.foldl (fun n c => 10 * n + digit c) 0

/-- Digits read after a number raise it by their count of places. -/
theorem foldl_digits (n : Nat) (cs : List Char) :
    cs.foldl (fun n c => 10 * n + digit c) n = n * tenTo cs.length + digitsValue cs := by
  induction cs generalizing n with
  | nil => simp [digitsValue, tenTo]
  | cons c cs ih =>
    have hpow : tenTo (cs.length + 1) = 10 * tenTo cs.length := by
      rw [tenTo, tenTo, Nat.pow_eq, Nat.pow_eq, Nat.pow_succ, Nat.mul_comm]
    simp only [digitsValue, List.foldl_cons, List.length_cons] at ih ⊢
    rw [ih (10 * n + digit c), ih (10 * 0 + digit c), hpow, Nat.add_mul]
    grind

/-- The number of a run that is cut in two. -/
theorem digitsValue_append (cs ds : List Char) :
    digitsValue (cs ++ ds) = digitsValue cs * tenTo ds.length + digitsValue ds := by
  rw [digitsValue, List.foldl_append, foldl_digits]
  rfl

/-- The number of a run of digits, read by halves for a number of rounds. -/
def readHalves : Nat → List Char → Nat
  | 0, cs => digitsValue cs
  | rounds + 1, cs =>
    let front := cs.take (cs.length / 2)
    let back := cs.drop (cs.length / 2)
    readHalves rounds front * tenTo back.length + readHalves rounds back

/-- The number of a run of digits.  Halving keeps the work on long runs small. -/
def readDigits (cs : List Char) : Nat := readHalves (Nat.log2 cs.length) cs

/-- Reading by halves gives the number of the run. -/
theorem readHalves_eq (rounds : Nat) (cs : List Char) : readHalves rounds cs = digitsValue cs := by
  induction rounds generalizing cs with
  | zero => rfl
  | succ rounds ih =>
    rw [readHalves, ih, ih, ← digitsValue_append, List.take_append_drop]

/-- So does reading it with as many rounds as its length asks for. -/
theorem readDigits_eq (cs : List Char) : readDigits cs = digitsValue cs := readHalves_eq _ cs

/-- Where the digits of an exponent stop counting. -/
def exponentCap : Nat := 65536

/-- The number that the digits of an exponent stand for.  Digits after it has reached `exponentCap`
are passed over: with a mantissa of usual length the number is zero or infinite by then. -/
def exponentValue (cs : List Char) : Nat :=
  cs.foldl (fun n c => if n < exponentCap then 10 * n + digit c else n) 0

/-- A leading sign, and the text after it. -/
def takeSign : List Char → Bool × List Char
  | '-' :: cs => (true, cs)
  | '+' :: cs => (false, cs)
  | cs => (false, cs)

/-- A whole text `[+-] digits` after the exponent mark. -/
def readExponent? (cs : List Char) : Option Int :=
  let (negative, digits) := takeSign cs
  if digits.isEmpty || !digits.all isDigit then none
  else if negative then some (-(exponentValue digits : Int)) else some (exponentValue digits)

/-- A whole text `digits [. digits] [e exponent]` as digits and a power of ten.  At least one
digit stands before the exponent. -/
def readScientific? (cs : List Char) : Option (Nat × Int) :=
  let whole := cs.takeWhile isDigit
  let rest := cs.dropWhile isDigit
  let (fraction, rest) := match rest with
    | '.' :: more => (more.takeWhile isDigit, more.dropWhile isDigit)
    | rest => ([], rest)
  if whole.isEmpty && fraction.isEmpty then none
  else
    let digits := readDigits (whole ++ fraction)
    match rest with
    | [] => some (digits, -(fraction.length : Int))
    | mark :: more =>
      if mark = 'e' || mark = 'E' then
        (readExponent? more).map fun power => (digits, power - fraction.length)
      else none

/-- Reads a whole text as a double: an optional sign, then a decimal or, in any case, one of the
words `inf`, `infinity` and `nan`. -/
def readFloat? (cs : List Char) : Option Float :=
  let (negative, body) := takeSign cs
  let word := body.map Char.toLower
  if word = ['i', 'n', 'f'] || word = ['i', 'n', 'f', 'i', 'n', 'i', 't', 'y'] then
    some (ofSignBits negative infinityBits)
  else if word = ['n', 'a', 'n'] then some (ofSignBits negative (infinityBits + 1 <<< 51))
  else (readScientific? body).map fun (digits, power) => nearest negative digits power

/-- Reads a whole text as a count below `bound`: digits after an optional plus sign. -/
def readNat? (bound : Nat) (cs : List Char) : Option Nat :=
  let digits := match cs with
    | '+' :: more => more
    | cs => cs
  if digits.isEmpty || !digits.all isDigit then none
  else
    let n := readDigits digits
    if n < bound then some n else none

/-! ## Writing -/

/-- The nearest decimal with unit `10 ^ power` that reads back to `bits`; of two at the same
distance the larger.  `num / den` is the exact value of `bits`. -/
def onGrid? (bits num den : Nat) (power : Int) : Option Nat :=
  let n := num * tenTo (-power).toNat
  let d := den * tenTo power.toNat
  let low := n / d
  let lowReads := scientificBits low power = bits
  let highReads := scientificBits (low + 1) power = bits
  if lowReads && (!highReads || 2 * (n % d) < d) then some low
  else if highReads then some (low + 1)
  else none

/-- Tries the grids from `power` downwards, `steps` of them. -/
def firstGrid? (bits num den : Nat) : Nat → Int → Option (Nat × Int)
  | 0, _ => none
  | steps + 1, power =>
    match onGrid? bits num den power with
    | some digits => some (digits, power)
    | none => firstGrid? bits num den steps (power - 1)

/-- The fewest digits that read back to the positive finite `bits`, with their power of ten.  When
no grid is found the exact expansion stands in. -/
def shortest (bits : Nat) : Nat × Int :=
  let (num, den) := exactQuotient bits
  let top : Int := ((num.log2 : Int) - (den.log2 : Int)) * 30103 / 100000 + 2
  (firstGrid? bits num den 24 top).getD (num * Nat.pow 5 den.log2, -(den.log2 : Int))

/-- Writes `digits · 10 ^ power` without an exponent. -/
def positionalDigits (digits : Nat) (power : Int) : List Char :=
  let text := Nat.toDigits 10 digits
  if 0 ≤ power then text ++ List.replicate power.toNat '0'
  else
    let places := (-power).toNat
    let padded := List.replicate (places + 1 - text.length) '0' ++ text
    padded.take (padded.length - places) ++ '.' :: padded.drop (padded.length - places)

/-- Writes a double: the fewest digits that read back, positional for every exponent, no point
after a whole number, `-0` for the negative zero, and the words `NaN`, `inf` and `-inf`. -/
def positional (x : Float) : String :=
  let bits := magnitude x
  if infinityBits < bits then "NaN"
  else
    let body :=
      if bits = infinityBits then ['i', 'n', 'f']
      else if bits = 0 then ['0']
      else
        let (digits, power) := shortest bits
        positionalDigits digits power
    String.ofList (if isNegative x then '-' :: body else body)

end WidgetStyle.Decimal
