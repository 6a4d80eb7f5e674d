/-!
# WidgetStyle.Double — doubles through their bits

A double is handled through its bits.  Those of the magnitude hold a whole number of units, and the
power of two that is the unit (`mantissa`, `unitPower`).  `nearestBits` goes back: it rounds an
exact quotient to the nearest double, ties to the even one.

`mulAdd` is the multiplication followed by an addition that easing polynomials are made of, with a
single rounding at the end: nothing is lost in between, and a product beyond the range of doubles
does no harm when the sum is within it.
-/

namespace WidgetStyle.Double

/-! ## Bits -/

/-- The bits of the positive infinity. -/
def infinityBits : Nat := 0x7FF0000000000000

/-- The weight of the sign bit. -/
def signBit : Nat := 0x8000000000000000

/-- The weight of the leading binary digit, which normal doubles do not store. -/
def hiddenBit : Nat := 0x10000000000000

/-- `num / den` in units of `2 ^ q`, rounded to the nearest whole number, ties to even. -/
def roundScaled (num den : Nat) (q : Int) : Nat :=
  let n := num <<< (-q).toNat
  let d := den <<< q.toNat
  let whole := n / d
  let twice := 2 * (n % d)
  if twice < d then whole
  else if d < twice then whole + 1
  else whole + whole % 2

/-- The bits of the double nearest to the positive quotient `num / den`.

The unit `2 ^ q` is chosen so that the quotient has 53 binary digits, but never below
`2 ^ (-1074)`, the unit of the smallest doubles.  A quotient rounded up to `2 ^ 53` units carries
into the exponent field by itself. -/
def nearestBits (num den : Nat) : Nat :=
  if num = 0 || den = 0 then 0
  else
    let guess : Int := (num.log2 : Int) - (den.log2 : Int) - 52
    let below : Bool := num <<< (-guess).toNat < (den <<< guess.toNat) <<< 52
    let q : Int := max (if below then guess - 1 else guess) (-1074)
    min infinityBits ((q + 1074).toNat <<< 52 + roundScaled num den q)

/-- The double with the given sign and magnitude bits. -/
def ofSignBits (negative : Bool) (bits : Nat) : Float :=
  Float.ofBits (UInt64.ofNat (if negative then signBit + bits else bits))

/-- Whether the sign of the double is negative. -/
def isNegative (x : Float) : Bool := signBit ≤ x.toBits.toNat

/-- The bits of a double without its sign. -/
def magnitude (x : Float) : Nat := x.toBits.toNat % signBit

/-! ## Exact values -/

/-- The number of units that finite magnitude bits stand for. -/
def mantissa (bits : Nat) : Nat :=
  let fraction := bits % hiddenBit
  if bits >>> 52 = 0 then fraction else hiddenBit + fraction

/-- The unit of finite magnitude bits, as a power of two. -/
def unitPower (bits : Nat) : Int := (max (bits >>> 52) 1 : Nat) - 1075

/-- The exact value of finite magnitude bits as a quotient. -/
def exactQuotient (bits : Nat) : Nat × Nat :=
  let q := unitPower bits
  (mantissa bits <<< q.toNat, 1 <<< (-q).toNat)

/-- The units of a finite double, with its sign. -/
def units (x : Float) : Int :=
  if isNegative x then -(mantissa (magnitude x) : Int) else mantissa (magnitude x)

/-! ## Multiplying and adding -/

/-- The double nearest to a number of units `2 ^ q`; for zero the sign is given. -/
def ofUnits (zeroNegative : Bool) (n q : Int) : Float :=
  ofSignBits (n < 0 || (n = 0 && zeroNegative))
    (nearestBits (n.natAbs <<< q.toNat) (1 <<< (-q).toNat))

/-- `x * y + z`, rounded once.  A zero is negative only when product and addend are. -/
def mulAdd (x y z : Float) : Float :=
  if !x.isFinite || !y.isFinite then x * y + z
  else if !z.isFinite then z
  else
    let p := unitPower (magnitude x) + unitPower (magnitude y)
    let r := unitPower (magnitude z)
    let q := min p r
    let product := units x * units y * (1 <<< (p - q).toNat : Nat)
    let addend := units z * (1 <<< (r - q).toNat : Nat)
    ofUnits (isNegative x != isNegative y && isNegative z) (product + addend) q

end WidgetStyle.Double
