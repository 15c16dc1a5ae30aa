/-
What the value of a formula depends on: the variables and the unit in which
angles are read.
-/
import Std.Data.TreeMap
import Formula.Angle

namespace Formula

structure Context where
  values : Std.TreeMap String Float := {}
  angleUnit : AngleUnit := Measure.angle.base

namespace Context

instance : Inhabited Context := ⟨{}⟩

/-- Binds a name, in place of what it was bound to before. -/
def bind (context : Context) (name : String) (value : Float) : Context :=
  { context with values := context.values.insert name value }

def value? (context : Context) (name : String) : Option Float := context.values[name]?

theorem value?_bind (context : Context) (name other : String) (value : Float) :
    (context.bind name value).value? other =
      if name = other then some value else context.value? other := by
  simp [bind, value?, Std.TreeMap.getElem?_insert]

/-- All bindings, sorted by name. -/
def bindings (context : Context) : List (String × Float) := context.values.toList

end Context

/-- A value that depends on a context, or the reason why there is none. -/
abbrev Meaning := Context → Except EvalError Float

end Formula
