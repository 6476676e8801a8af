/-
  Doubles as signed multiples of powers of two.

  Key declarations include:
    * `Decimal.Double`
    * `Decimal.Double.ofFloat`
    * `Decimal.Double.whole?`
    * `Decimal.scaled`

  A finite double is a natural mantissa times a power of
  two, so every question about its decimal text is a
  question about natural numbers.
-/

namespace Scriptlet

namespace Decimal

/-
  What a double stands for.  A finite one is
  `mantissa * 2 ^ exponent`, negated if `negative`.
-/
inductive Double where
  | nan
  | infinite (negative : Bool)
  | finite (negative : Bool) (mantissa : Nat) (exponent : Int)
  deriving DecidableEq, Repr

namespace Double

/- The exponent of the subnormal doubles. -/
def leastExponent : Int := -1074

/- The least mantissa of a normal double. -/
def leastNormal : Nat := Nat.pow 2 52

/- Read the sign, exponent and fraction fields. -/
def ofFloat (x : Float) : Double :=
  let bits : Nat := x.toBits.toNat
  let negative := decide (Nat.pow 2 63 ≤ bits)
  let field : Nat := bits / Nat.pow 2 52 % Nat.pow 2 11
  let fraction : Nat := bits % Nat.pow 2 52
  if field = 2047 then
    if fraction = 0 then .infinite negative else .nan
  else if field = 0 then
    .finite negative fraction leastExponent
  else
    .finite negative (leastNormal + fraction) ((field : Int) - 1075)

/-
  The magnitude of a finite double without fractional part.
-/
def whole? : Double → Option Nat
  | .finite _ mantissa exponent =>
      let down := Nat.pow 2 (-exponent).toNat
      if mantissa % down = 0 then
        some (mantissa / down * Nat.pow 2 exponent.toNat)
      else none
  | _ => none

/- The sign bit, also of zeros and infinities. -/
def negative : Double → Bool
  | .nan => false
  | .infinite negative => negative
  | .finite negative _ _ => negative

end Double

/- A nonnegative fraction of naturals. -/
structure Ratio where
  num : Nat
  den : Nat
  deriving Repr

/- The fraction `n * 2 ^ two * 10 ^ ten`. -/
def scaled (n : Nat) (two ten : Int) : Ratio where
  num := n * Nat.pow 2 two.toNat * Nat.pow 10 ten.toNat
  den := Nat.pow 2 (-two).toNat * Nat.pow 10 (-ten).toNat

namespace Ratio

/- Order by cross multiplication. -/
def le (a b : Ratio) : Bool :=
  decide (a.num * b.den ≤ b.num * a.den)

def lt (a b : Ratio) : Bool :=
  decide (a.num * b.den < b.num * a.den)

end Ratio

/- The number of decimal digits of a natural. -/
def width (n : Nat) : Nat := (Nat.toDigits 10 n).length

end Decimal

end Scriptlet
