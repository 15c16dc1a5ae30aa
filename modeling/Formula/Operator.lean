/-
The operators of a formula: their symbols, how tightly they bind and what they
compute.
-/
import Formula.Number.Arithmetic

namespace Formula

inductive UnaryOperator where
  | identity
  | negate
deriving DecidableEq, Repr

namespace UnaryOperator

/-- Signs bind tighter than every binary operator. -/
def priority : Nat := 256

def symbol : UnaryOperator → Char
  | identity => '+'
  | negate => '-'

def apply : UnaryOperator → Float → Float
  | identity, x => x
  | negate, x => -x

end UnaryOperator

inductive BinaryOperator where
  | add
  | sub
  | mul
  | div
  | mod
  | pow
deriving DecidableEq, Repr

namespace BinaryOperator

/-- All binary operators, the weaker ones first. -/
def all : List BinaryOperator := [add, sub, mul, div, mod, pow]

/-- A higher priority binds tighter. -/
def priority : BinaryOperator → Nat
  | add | sub => 4
  | mul | div | mod => 5
  | pow => 6

theorem priority_lt_unary (op : BinaryOperator) : op.priority < UnaryOperator.priority := by
  cases op <;> decide

def symbol : BinaryOperator → Char
  | add => '+'
  | sub => '-'
  | mul => '*'
  | div => '/'
  | mod => '%'
  | pow => '^'

def apply : BinaryOperator → Float → Float → Float
  | add, x, y => x + y
  | sub, x, y => x - y
  | mul, x, y => x * y
  | div, x, y => x / y
  | mod, x, y => Binary64.remainder x y
  | pow, x, y => Binary64.power x y

end BinaryOperator

end Formula
