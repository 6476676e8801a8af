import Scriptlet.Decimal.Double

/-
  The fewest decimal digits that read back, and their text.

  Key declarations include:
    * `Decimal.Tie`
    * `Decimal.readsBack`
    * `Decimal.Digits`
    * `Decimal.shortest`
    * `Decimal.Digits.positional`
    * `Decimal.Digits.scientific`

  A decimal reads back as a double if it lies in the
  interval of reals that round to it.  The interval is
  halfway to both neighbours, its ends belong to it if the
  mantissa is even, and below a power of two the lower half
  is half as wide.
-/

namespace Scriptlet

namespace Decimal

/- Which of two equally near decimals is written. -/
inductive Tie where
  | up
  | toEven
  deriving DecidableEq, Repr

/- A decimal `coefficient * 10 ^ scale`. -/
structure Digits where
  coefficient : Nat
  scale : Int
  deriving DecidableEq, Repr

namespace Digits

def ratio (d : Digits) : Ratio := scaled d.coefficient 0 d.scale

/- Move trailing zeros into the scale. -/
def trim (coefficient : Nat) (scale : Int) : Digits :=
  if h : coefficient ≠ 0 ∧ coefficient % 10 = 0 then
    trim (coefficient / 10) (scale + 1)
  else ⟨coefficient, scale⟩
termination_by coefficient
decreasing_by
  exact Nat.div_lt_self (Nat.pos_of_ne_zero h.1) (by decide)

/- The decimal exponent of the leading digit. -/
def leading (d : Digits) : Int := (width d.coefficient : Int) - 1 + d.scale

end Digits

/-
  The lower end of the rounding interval, in quarters of
  the last place of the mantissa.
-/
def lowerEnd (mantissa : Nat) (exponent : Int) : Nat :=
  if mantissa = Double.leastNormal ∧ Double.leastExponent < exponent then
    4 * mantissa - 1
  else 4 * mantissa - 2

/-
  Does this decimal round to `mantissa * 2 ^ exponent`?
-/
def readsBack (mantissa : Nat) (exponent : Int) (d : Digits) : Bool :=
  let low := scaled (lowerEnd mantissa exponent) (exponent - 2) 0
  let high := scaled (4 * mantissa + 2) (exponent - 2) 0
  if mantissa % 2 = 0 then
    low.le d.ratio && d.ratio.le high
  else low.lt d.ratio && d.ratio.lt high

/-
  The decimal exponent of the leading digit of a positive
  fraction.
-/
def leadingPlace (r : Ratio) : Int :=
  if r.den ≤ r.num then
    (width (r.num / r.den) : Int) - 1
  else
    let places := width (r.den / r.num)
    if r.num * Nat.pow 10 (places - 1) = r.den then
      1 - (places : Int)
    else -(places : Int)

/-
  The better of the two decimals around the value on the
  grid of `digits` significant digits, if one reads back.
-/
def onGrid (tie : Tie) (mantissa : Nat) (exponent : Int) (digits : Nat) : Option Digits :=
  let value := scaled mantissa exponent 0
  let scale := leadingPlace value - digits + 1
  let unit := scaled 1 0 scale
  let below := value.num * unit.den / (value.den * unit.num)
  let middle := scaled (2 * below + 1) (-1) scale
  let lower : Digits := ⟨below, scale⟩
  let upper : Digits := ⟨below + 1, scale⟩
  let goesUp :=
    middle.lt value ||
      (value.le middle && middle.le value && (tie = .up || below % 2 = 1))
  match readsBack mantissa exponent lower, readsBack mantissa exponent upper with
  | true, true => some (if goesUp then upper else lower)
  | true, false => some lower
  | false, true => some upper
  | false, false => none

/- All the digits of `mantissa * 2 ^ exponent`. -/
def exact (mantissa : Nat) (exponent : Int) : Digits where
  coefficient :=
    mantissa * Nat.pow 2 exponent.toNat * Nat.pow 5 (-exponent).toNat
  scale := min exponent 0

/- Seventeen digits always suffice. -/
def digitLimit : Nat := 17

/-
  The shortest decimal that reads back as a positive
  double, the nearest one of that length.
-/
def shortest (tie : Tie) (mantissa : Nat) (exponent : Int) : Digits :=
  let found :=
    (List.range digitLimit).findSome? fun extra =>
      onGrid tie mantissa exponent (extra + 1)
  match found with
  | some d => Digits.trim d.coefficient d.scale
  | none => exact mantissa exponent

def zeros (n : Nat) : List Char := List.replicate n '0'

namespace Digits

/- The significant digits. -/
def chars (d : Digits) : List Char := Nat.toDigits 10 d.coefficient

/-
  Positional text of a decimal with fractional places, such
  as `12.5` or `0.001`.
-/
def fractional (d : Digits) : List Char :=
  let point := (d.chars.length : Int) + d.scale
  if 0 < point then
    d.chars.take point.toNat ++ '.' :: d.chars.drop point.toNat
  else
    '0' :: '.' :: (zeros (-point).toNat ++ d.chars)

/-
  Positional text, whatever the size; a point only before
  fractional digits.
-/
def positional (d : Digits) : List Char :=
  if 0 ≤ d.scale then d.chars ++ zeros d.scale.toNat
  else d.fractional

/- Positional text that always shows a fraction. -/
def pointed (d : Digits) : List Char :=
  if 0 ≤ d.scale then
    d.chars ++ zeros d.scale.toNat ++ ['.', '0']
  else d.fractional

/-
  One digit, the other digits as a fraction, and a signed
  exponent, such as `1.25e-6` or `1e+21`.
-/
def scientific (d : Digits) : List Char :=
  let mark :=
    if d.leading < 0 then ['e', '-'] else ['e', '+']
  let power := Nat.toDigits 10 d.leading.natAbs
  match d.chars with
  | [] => mark ++ power
  | [first] => first :: (mark ++ power)
  | first :: others =>
      first :: '.' :: (others ++ mark ++ power)

end Digits

end Decimal

end Scriptlet
