import Scriptlet.Decimal.Shortest

/-
  The numbers of the language as text.

  Key declarations include:
    * `Numeral.ofDecimal`
    * `Numeral.isWhole`
    * `Numeral.shortest`
    * `Numeral.display`
    * `Numeral.oneDecimal`
    * `Numeral.json`
    * `Numeral.index?`
-/

namespace Scriptlet

namespace Numeral

open Decimal

/- The natural number that decimal digits spell. -/
def natural (digits : List Char) : Nat :=
  digits.foldl (fun n c => 10 * n + (c.toNat - '0'.toNat)) 0

/-
  The double nearest to the decimal with these digits before
  and after the point.
-/
def ofDecimal (whole fraction : List Char) : Float :=
  Float.ofScientific (natural (whole ++ fraction)) true fraction.length

/- Has the number no fractional part? -/
def isWhole (x : Float) : Bool := (Double.ofFloat x).whole?.isSome

/-
  The element position a number names: a whole number that
  is not negative.  Positions past `2 ^ 64 - 1` are clipped.
-/
def index? (x : Float) : Option Nat :=
  let double := Double.ofFloat x
  match double.whole? with
  | some n =>
      if double.negative && n != 0 then none
      else some (min n (UInt64.size - 1))
  | none => none

def signed (negative : Bool) (text : List Char) : String :=
  String.ofList (if negative then '-' :: text else text)

/-
  The fewest digits that read back, never with an exponent;
  of two equally near decimals the greater magnitude.
-/
def shortest (x : Float) : String :=
  match Double.ofFloat x with
  | .nan => "NaN"
  | .infinite negative => signed negative "inf".toList
  | .finite negative mantissa exponent =>
      if mantissa = 0 then signed negative ['0']
      else
        signed negative (Decimal.shortest .up mantissa exponent).positional

/- Whole numbers of less magnitude are written exactly. -/
def wholeLimit : Nat := Nat.pow 10 15

/-
  The printed form of a number.  Whole numbers below the
  limit are integers, and zero has no sign.
-/
def display (x : Float) : String :=
  let double := Double.ofFloat x
  match double.whole? with
  | some n =>
      if n < wholeLimit then
        signed (double.negative && n != 0) (Nat.toDigits 10 n)
      else shortest x
  | none => shortest x

/-
  Whole numbers exactly and with one decimal, others in the
  fewest digits.  Zero keeps its sign.
-/
def oneDecimal (x : Float) : String :=
  let double := Double.ofFloat x
  match double.whole? with
  | some n =>
      signed double.negative (Nat.toDigits 10 n ++ ['.', '0'])
  | none => shortest x

/-
  JSON text: the fewest digits, ties to even, positional with
  a fraction for leading places from -5 to 15, scientific
  outside them, and `null` for what is not finite.
-/
def json (x : Float) : String :=
  match Double.ofFloat x with
  | .nan => "null"
  | .infinite _ => "null"
  | .finite negative mantissa exponent =>
      if mantissa = 0 then signed negative ['0', '.', '0']
      else
        let d := Decimal.shortest .toEven mantissa exponent
        if -5 ≤ d.leading ∧ d.leading < 16 then
          signed negative d.pointed
        else signed negative d.scientific

end Numeral

end Scriptlet
