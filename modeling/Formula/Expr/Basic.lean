/-
Formulas as trees.  A tree keeps the parentheses that were written, and every
call keeps the implementation that it was bound to.
-/
import Formula.Function
import Formula.Operator

namespace Formula

inductive Expr where
  | number (value : Float)
  | var (name : String)
  | call (name : String) (arguments : List Expr) (implementation : Implementation)
  | block (inner : Expr)
  | unary (op : UnaryOperator) (operand : Expr)
  | binary (op : BinaryOperator) (left right : Expr)

/-- The call of a function under its own name. -/
def Function.call (function : Function) (arguments : List Expr) : Expr :=
  .call function.name arguments function.implementation

namespace Expr

instance : Inhabited Expr := ⟨.number 0⟩

/-- The trees directly below the root, from left to right. -/
def children : Expr → List Expr
  | number _ => []
  | var _ => []
  | call _ arguments _ => arguments
  | block inner => [inner]
  | unary _ operand => [operand]
  | binary _ left right => [left, right]

/-!
Two calls are the same when they name the same function with the same
arguments, whatever implementations they are bound to.  Numbers are compared as
numbers, so a NaN is the same as nothing and both zeros are the same.
-/

mutual

def same : Expr → Expr → Bool
  | number value, number other => value == other
  | var name, var other => name == other
  | call name arguments _, call other others _ => name == other && sameList arguments others
  | block inner, block other => same inner other
  | unary op operand, unary op' other => op == op' && same operand other
  | binary op left right, binary op' left' right' =>
      op == op' && same left left' && same right right'
  | _, _ => false

def sameList : List Expr → List Expr → Bool
  | [], [] => true
  | expr :: rest, other :: others => same expr other && sameList rest others
  | _, _ => false

end

instance : BEq Expr := ⟨same⟩

end Expr

end Formula
