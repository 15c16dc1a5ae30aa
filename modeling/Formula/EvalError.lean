/-
Why a formula has no value.
-/
import Formula.Number.Text

namespace Formula

/-- What a function holds against its arguments. -/
inductive ArgumentFault where
  | count (expected given : Nat)
  | crossedBounds (lower upper : Float)
  | other (details : String)
deriving DecidableEq

def ArgumentFault.details : ArgumentFault → String
  | count expected given => s!"expected {expected} arguments, got {given}"
  | crossedBounds lower upper =>
      let lower := Binary64.toText lower
      let upper := Binary64.toText upper
      s!"min ({lower}) > max ({upper})"
  | other details => details

inductive EvalError where
  | undefinedVariable (name : String)
  | invalidArgument (function : String) (fault : ArgumentFault)
  | incompatibleUnit (unit measure : String)
deriving DecidableEq

def EvalError.message : EvalError → String
  | undefinedVariable name => s!"Variable '{name}' isn't defined."
  | invalidArgument function fault =>
      let details := fault.details
      s!"Invalid argument to '{function}': {details}."
  | incompatibleUnit unit measure => s!"Unit '{unit}' is not a unit of {measure}."

end Formula
