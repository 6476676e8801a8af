import Scriptlet.Numeral

/-
  Numbers spelled in decimal digits.

  Key declarations include:
    * `Numeral.decimalText`
    * `Numeral.Spells`
    * `Numeral.Displayed`
-/

namespace Scriptlet

namespace Numeral

/- Digits, and a point before further ones. -/
def decimalText (whole fraction : List Char) : List Char :=
  match fraction with
  | [] => whole
  | d :: others => whole ++ '.' :: d :: others

/- Digits that spell a number. -/
structure Spells (whole fraction : List Char) (x : Float) : Prop where
  value : ofDecimal whole fraction = x
  nonempty : whole ≠ []
  digits : ∀ d ∈ whole ++ fraction, d.isDigit = true

/- The printed form of a number, or of infinity. -/
def Displayed (x : Float) : Prop :=
  if Decimal.Double.ofFloat x = .infinite false then
    display x = "inf"
  else
    ∃ whole fraction, Spells whole fraction x ∧ (display x).toList = decimalText whole fraction

end Numeral

end Scriptlet
