/-
Numerals in positional notation: the digits before and after a point.  A
numeral has an exact value and denotes the double nearest to it; conversely
every finite magnitude has a shortest numeral that denotes it.
-/
import Formula.Number.Binary64

namespace Formula

/-- A number written with digits before and after a point. -/
structure Numeral where
  whole : List Char
  fraction : List Char
deriving DecidableEq, Repr

namespace Numeral

/-- The code of the double nearest to coefficient * 10 ^ exponent.  Values from
10 ^ 309 on are infinite, and values below 2 ^ -1075 vanish; both are decided
before a large power is formed. -/
def scaledCode (coefficient : Nat) : Int → Nat
  | .ofNat exponent =>
      if coefficient = 0 then 0
      else if 309 ≤ exponent then Binary64.infinity
      else Binary64.nearest (coefficient * Nat.pow 10 exponent) 1
  | .negSucc predecessor =>
      if coefficient.log2 + 1076 ≤ 3 * (predecessor + 1) then 0
      else Binary64.nearest coefficient (Nat.pow 10 (predecessor + 1))

/-- The digits of the numeral without its point, as a natural number. -/
def coefficient (numeral : Numeral) : Nat :=
  Nat.ofDigitChars 10 (numeral.whole ++ numeral.fraction) 0

/-- The code of the double that the numeral denotes. -/
def code (numeral : Numeral) : Nat :=
  scaledCode numeral.coefficient (-(numeral.fraction.length : Int))

/-- The numeral of coefficient / 10 ^ places, without zeros at its end. -/
def ofCoefficient (coefficient places : Nat) : Numeral where
  whole := Nat.toDigits 10 (coefficient / Nat.pow 10 places)
  fraction :=
    if places = 0 then []
    else
      let digits := Nat.toDigits 10 (coefficient % Nat.pow 10 places)
      ((digits.leftpad places '0').reverse.dropWhile (· = '0')).reverse

/-- The numeral of coefficient * 10 ^ exponent. -/
def ofScaled (coefficient : Nat) : Int → Numeral
  | .ofNat exponent => ofCoefficient (coefficient * Nat.pow 10 exponent) 0
  | .negSucc predecessor => ofCoefficient coefficient (predecessor + 1)

/-- The least k such that the magnitude is below 10 ^ k. -/
def decimalOrder (count : Nat) : Int :=
  ((Nat.toDigits 10 (count * Nat.pow 10 324 / Binary64.unitsPerOne)).length : Int) - 324

/-- The multiples of 10 ^ exponent on both sides of a number of units, the
nearer one first, and the upper one where both are equally near. -/
def neighbours (count : Nat) (exponent : Int) : List Nat :=
  let numerator := count * Nat.pow 10 (-exponent).toNat
  let denominator := Binary64.unitsPerOne * Nat.pow 10 exponent.toNat
  let floor := numerator / denominator
  if 2 * (numerator % denominator) < denominator then [floor, floor + 1]
  else [floor + 1, floor]

/-- All digits of a number of units. -/
def exact (count : Nat) : Numeral := ofCoefficient (count * Nat.pow 5 1074) 1074

/-- The shortest numeral that denotes the double with the given code, and among
the shortest the one nearest to it, of two equally near the larger.  Seventeen
significant digits are always enough. -/
def shortest (code : Nat) : Numeral :=
  if code = 0 then ⟨['0'], []⟩
  else
    let count := Binary64.units code
    let order := decimalOrder count
    let found := (List.range 17).findSome? fun (extra : Nat) =>
      let exponent := order - 1 - (extra : Int)
      (neighbours count exponent).findSome? fun coefficient =>
        if scaledCode coefficient exponent = code then some (ofScaled coefficient exponent)
        else none
    found.getD (exact count)

/-- The numeral with a decimal separator between its parts; the separator
stands only before a fraction. -/
def write (separator : Char) (numeral : Numeral) : List Char :=
  if numeral.fraction = [] then numeral.whole
  else numeral.whole ++ separator :: numeral.fraction

end Numeral

end Formula
