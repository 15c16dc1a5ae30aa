/-
Operations on doubles beyond the four that the hardware rounds: remainder,
rounding to whole numbers, minimum and maximum, and the real power.
-/
import Formula.Number.Binary64

namespace Formula.Binary64

/-- The exact remainder, with the sign of the dividend. -/
def remainder (dividend divisor : Float) : Float :=
  if isNotANumber dividend ∨ isNotANumber divisor then notANumber
  else if isFinite dividend ∧ code divisor ≠ 0 then
    if isFinite divisor then
      ofCode (isNegative dividend) (ofUnits (units (code dividend) % units (code divisor)))
    else dividend
  else notANumber

/-- Rounds a finite magnitude with a rule that receives the number of units and
the number of units in one; the sign stays, also of a zero. -/
def roundWith (rule : Nat → Nat → Nat) (x : Float) : Float :=
  if isFinite x then ofCode (isNegative x) (nearest (rule (units (code x)) unitsPerOne) 1)
  else x

def quotientUp (numerator denominator : Nat) : Nat :=
  (numerator + (denominator - 1)) / denominator

def floor (x : Float) : Float :=
  roundWith (if isNegative x then quotientUp else (· / ·)) x

def ceiling (x : Float) : Float :=
  roundWith (if isNegative x then (· / ·) else quotientUp) x

/-- The nearest whole number; a half goes to the even neighbour. -/
def roundHalfEven (x : Float) : Float := roundWith roundQuotient x

/-- The smaller of two doubles; a NaN on either side gives NaN. -/
def minimum (x y : Float) : Float :=
  if isNotANumber x ∨ isNotANumber y then notANumber else if y < x then y else x

/-- The larger of two doubles; a NaN on either side gives NaN. -/
def maximum (x y : Float) : Float :=
  if isNotANumber x ∨ isNotANumber y then notANumber else if x < y then y else x

/-- The power of the magnitude, negated where a negative base meets an odd whole
exponent; other exponents of a negative base give the positive power. -/
def power (base exponent : Float) : Float :=
  let magnitude := Float.pow (Float.abs base) exponent
  if base < 0 ∧ remainder (Float.abs exponent) 2 == 1 then -magnitude else magnitude

end Formula.Binary64
