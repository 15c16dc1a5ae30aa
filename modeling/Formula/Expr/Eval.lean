/-
The value of a formula in a context.  Arithmetic follows the doubles, so it
never fails; a formula has no value only where a variable is unbound or a
function refuses its arguments.
-/
import Formula.Expr.Basic

namespace Formula.Expr

mutual

/-- Operands are evaluated from left to right, and the first error ends the
evaluation.  A call hands the meanings of its arguments to its implementation. -/
def eval : Expr → Meaning
  | number value => fun _ => pure value
  | var name => fun context =>
      match context.value? name with
      | some value => pure value
      | none => throw (.undefinedVariable name)
  | call _ arguments implementation => implementation.run (meanings arguments)
  | block inner => eval inner
  | unary op operand => fun context => return op.apply (← eval operand context)
  | binary op left right => fun context => do
      let x ← eval left context
      let y ← eval right context
      return op.apply x y

def meanings : List Expr → List Meaning
  | [] => []
  | expr :: rest => eval expr :: meanings rest

end

theorem meanings_eq_map (exprs : List Expr) : meanings exprs = exprs.map eval := by
  induction exprs with
  | nil => rfl
  | cons expr rest ih => rw [meanings, ih, List.map_cons]

/-- Evaluates formulas in turn, up to the first error. -/
def evalAll (exprs : List Expr) (context : Context) : Except EvalError (List Float) :=
  exprs.mapM (eval · context)

end Formula.Expr
