/-
Double precision seen through natural numbers.  Every finite double is a whole
multiple of the least positive one, 2 ^ -1074, so exact arithmetic needs no
fractions.  Without its sign bit the pattern of a double is its code; codes are
ordered as magnitudes are, and `nearest` finds the code closest to a quotient.
-/

namespace Formula.Binary64

/-- The code of infinity, one step above the largest finite double. -/
def infinity : Nat := 2047 * Nat.pow 2 52

/-- The pattern of a double without its sign bit. -/
def code (x : Float) : Nat := x.toBits.toNat % Nat.pow 2 63

def isNegative (x : Float) : Bool := Nat.pow 2 63 ≤ x.toBits.toNat

/-- The double with the given sign and code. -/
def ofCode (negative : Bool) (code : Nat) : Float :=
  Float.ofBits (UInt64.ofNat (if negative then Nat.pow 2 63 + code else code))

def notANumber : Float := ofCode false (infinity + Nat.pow 2 51)

def isNotANumber (x : Float) : Bool := infinity < code x

def isFinite (x : Float) : Bool := code x < infinity

/-- How many units of 2 ^ -1074 the double with this code holds. -/
def units (code : Nat) : Nat :=
  let exponent := code / Nat.pow 2 52
  let fraction := code % Nat.pow 2 52
  if exponent = 0 then fraction else (Nat.pow 2 52 + fraction) * Nat.pow 2 (exponent - 1)

/-- How many units make one. -/
def unitsPerOne : Nat := Nat.pow 2 1074

/-- The quotient rounded to a whole number, a half going to the even neighbour. -/
def roundQuotient (numerator denominator : Nat) : Nat :=
  let floor := numerator / denominator
  let twice := 2 * (numerator % denominator)
  if twice < denominator then floor
  else if denominator < twice then floor + 1
  else floor + floor % 2

/-- The code of the double nearest to a quotient of natural numbers.  Below
2 ^ 53 units every whole number of units is a double and is its own code;
above, doubles lie 2 ^ step units apart and each binade takes 2 ^ 52 codes, so
a significand rounded up to 2 ^ 53 lands on the first code of the next one. -/
def nearest (numerator denominator : Nat) : Nat :=
  let scaled := numerator * unitsPerOne
  let step := (scaled / denominator).log2 - 52
  min (step * Nat.pow 2 52 + roundQuotient scaled (denominator * Nat.pow 2 step)) infinity

/-- The code of a whole number of units that some double holds. -/
def ofUnits (count : Nat) : Nat := nearest count unitsPerOne

end Formula.Binary64
