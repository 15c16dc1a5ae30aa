/-
Settings of the parser: the functions that formulas may call, whether a product
may be written without a star, and how large a formula may grow.
-/
import Formula.Function

namespace Formula

structure Settings where
  implicitProducts : Bool := true
  functions : List Function := []
  /-- How deep parentheses and calls may be nested. -/
  maxDepth : Nat := 128
  /-- How high the tree of a formula may be. -/
  maxHeight : Nat := 512

namespace Settings

/-- All functions of the library are registered. -/
def standard : Settings := { functions := Builtin.all.map Builtin.definition }

instance : Inhabited Settings := ⟨standard⟩

/-- Adds a function behind the others, so that an earlier one of the same name
and arity keeps its calls. -/
def register (settings : Settings) (function : Function) : Settings :=
  { settings with functions := settings.functions ++ [function] }

/-- The first function with this name and number of arguments. -/
def function? (settings : Settings) (name : String) (arity : Nat) : Option Function :=
  settings.functions.find? fun function => function.name == name && function.arity == arity

theorem function?_register (settings : Settings) (function : Function) (name : String)
    (arity : Nat) :
    (settings.register function).function? name arity =
      (settings.function? name arity).or
        (if function.name = name ∧ function.arity = arity then some function else none) := by
  simp only [function?, register, List.find?_append, List.find?_singleton, Bool.and_eq_true,
    beq_iff_eq]

end Settings

end Formula
