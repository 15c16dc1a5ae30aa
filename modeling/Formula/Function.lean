/-
Functions that a formula may call.  An implementation receives its arguments
unevaluated, as meanings, and decides itself which of them it evaluates and in
which context.
-/
import Formula.Context
import Formula.Number.Arithmetic

namespace Formula

inductive Builtin where
  | abs
  | min
  | max
  | clamp
  | ceiling
  | round
  | floor
  | sin
  | cos
  | tan
deriving DecidableEq, Repr

namespace Builtin

def all : List Builtin := [abs, min, max, clamp, ceiling, round, floor, sin, cos, tan]

def name : Builtin → String
  | abs => "abs"
  | min => "min"
  | max => "max"
  | clamp => "clamp"
  | ceiling => "ceiling"
  | round => "round"
  | floor => "floor"
  | sin => "sin"
  | cos => "cos"
  | tan => "tan"

def ofName? (name : String) : Option Builtin := all.find? (·.name == name)

def arity : Builtin → Nat
  | min | max => 2
  | clamp => 3
  | _ => 1

def countFault (function : Builtin) (given : Nat) : EvalError :=
  .invalidArgument function.name (.count function.arity given)

/-- The value restricted to bounds, which must not be crossed. -/
def clampValue (value lower upper : Float) : Except EvalError Float :=
  if upper < lower then throw (.invalidArgument clamp.name (.crossedBounds lower upper))
  else return if value < lower then lower else if upper < value then upper else value

/-- A function of an angle, which is read in the unit of the context. -/
def ofAngle (function : Float → Float) (context : Context) (angle : Float) :
    Except EvalError Float := do
  return function (← Measure.angle.convert angle context.angleUnit .radian)

/-- The function at evaluated arguments. -/
def apply (context : Context) : Builtin → List Float → Except EvalError Float
  | abs, [x] => pure (Float.abs x)
  | min, [x, y] => pure (Binary64.minimum x y)
  | max, [x, y] => pure (Binary64.maximum x y)
  | clamp, [x, lower, upper] => clampValue x lower upper
  | ceiling, [x] => pure (Binary64.ceiling x)
  | round, [x] => pure (Binary64.roundHalfEven x)
  | floor, [x] => pure (Binary64.floor x)
  | sin, [x] => ofAngle Float.sin context x
  | cos, [x] => ofAngle Float.cos context x
  | tan, [x] => ofAngle Float.tan context x
  | function, arguments => throw (function.countFault arguments.length)

/-- The arguments are counted before any of them is evaluated. -/
def run (function : Builtin) (arguments : List Meaning) (context : Context) :
    Except EvalError Float :=
  if arguments.length = function.arity then do
    let values ← arguments.mapM (· context)
    function.apply context values
  else throw (function.countFault arguments.length)

end Builtin

/-- What a call runs: a function of the library, or one of the user's. -/
inductive Implementation where
  | builtin (function : Builtin)
  | custom (run : List Meaning → Meaning)

def Implementation.run : Implementation → List Meaning → Meaning
  | builtin function => function.run
  | custom run => run

/-- A function under the name and the number of arguments it is called with. -/
structure Function where
  name : String
  arity : Nat
  implementation : Implementation

def Builtin.definition (function : Builtin) : Function :=
  ⟨function.name, function.arity, .builtin function⟩

end Formula
