/-
Angle units.  A measure lists the units of one quantity with their factors to a
base unit; a value passes from one unit to another through the base.
-/
import Formula.EvalError
import Formula.Text.Blank

namespace Formula

/-- A unit with the factor that leads to the base unit of its measure. -/
structure AngleUnit where
  name : String
  symbol : String
  toBase : Float
deriving DecidableEq

namespace AngleUnit

def degree : AngleUnit := ⟨"Degree", "°", 1⟩

def radian : AngleUnit := ⟨"Radian", "rad", 180 / 3.141592653589793⟩

/-- Units are the same when name, symbol and factor are; a factor that is not a
number is the same as no factor. -/
instance : BEq AngleUnit where
  beq unit other :=
    unit.name == other.name && unit.symbol == other.symbol && unit.toBase == other.toBase

end AngleUnit

structure Measure where
  name : String
  units : List AngleUnit
  base : AngleUnit

namespace Measure

def angle : Measure := ⟨"Angle", [.degree, .radian], .degree⟩

def contains (measure : Measure) (unit : AngleUnit) : Bool := measure.units.any (· == unit)

/-- Refuses a unit of another measure. -/
def check (measure : Measure) (unit : AngleUnit) : Except EvalError PUnit :=
  if measure.contains unit then pure ⟨⟩ else throw (.incompatibleUnit unit.name measure.name)

def convert (measure : Measure) (value : Float) (source target : AngleUnit) :
    Except EvalError Float := do
  measure.check source
  measure.check target
  return if source == target then value else value * source.toBase / target.toBase

end Measure

namespace AngleUnit

/-- Whether two texts agree up to the case of ASCII letters. -/
def sameWord (text other : List Char) : Bool :=
  text.map Char.toLower == other.map Char.toLower

/-- The texts that name a unit: its symbol, its name in singular or plural, and
for degrees a customary abbreviation. -/
def answersTo (unit : AngleUnit) (text : List Char) : Bool :=
  let symbol := unit.symbol.toList
  sameWord unit.name.toList text
    || symbol == text
    || (symbol.all (·.toNat < 0x80) && sameWord symbol text)
    || sameWord (unit.name.toList ++ ['s']) text
    || (sameWord "deg".toList text && unit.name == degree.name)

def ofText? (text : String) : Option AngleUnit :=
  Measure.angle.units.find? (·.answersTo (Text.trim text.toList))

end AngleUnit

end Formula
