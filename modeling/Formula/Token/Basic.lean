/-
Tokens of a formula.  The scanner yields numbers, names and marks; collapsing
replaces a call or a parenthesised group by one token that carries its tree.
-/
import Formula.Expr.Basic

namespace Formula

inductive Token where
  | number (value : Float)
  | plus
  | minus
  | star
  | slash
  | percent
  | caret
  | openParen
  | closeParen
  | comma
  | group (inner : Expr)
  | identifier (name : String)
  | call (tree : Expr)

namespace Token

/-- The token of a character that is a token by itself. -/
def mark? : Char → Option Token
  | '+' => some plus
  | '-' => some minus
  | '*' => some star
  | '/' => some slash
  | '%' => some percent
  | '^' => some caret
  | '(' => some openParen
  | ')' => some closeParen
  | ',' => some comma
  | _ => none

/-- Tokens that stand for a value by themselves. -/
def isValue : Token → Bool
  | number _ | identifier _ | call _ | group _ => true
  | _ => false

/-- The tree that a value token stands for.  A group keeps its parentheses. -/
def tree? : Token → Option Expr
  | number value => some (.number value)
  | identifier name => some (.var name)
  | call tree => some tree
  | group inner => some (.block inner)
  | _ => none

theorem isSome_tree? (token : Token) : token.tree?.isSome = token.isValue := by
  cases token <;> rfl

/-- The binary operator that the token is a symbol of. -/
def binary? : Token → Option BinaryOperator
  | plus => some .add
  | minus => some .sub
  | star => some .mul
  | slash => some .div
  | percent => some .mod
  | caret => some .pow
  | _ => none

/-- The sign that the token is a symbol of. -/
def unary? : Token → Option UnaryOperator
  | plus => some .identity
  | minus => some .negate
  | _ => none

def isOperator (token : Token) : Bool := token.binary?.isSome

theorem isOperator_of_unary? {token : Token} {op : UnaryOperator} (h : token.unary? = some op) :
    token.isOperator := by
  cases token <;> simp_all [unary?, isOperator, binary?]

/-- How tightly the token binds as an operator of the given arity.  Any token in
the place of a sign has the priority of signs, and a token that is no operator
has the least priority. -/
def priority (token : Token) (isBinary : Bool) : Nat :=
  if isBinary then (token.binary?.map BinaryOperator.priority).getD 0
  else UnaryOperator.priority

/-- Tokens are compared as trees are: a NaN differs from itself. -/
def same : Token → Token → Bool
  | number value, number other => value == other
  | plus, plus => true
  | minus, minus => true
  | star, star => true
  | slash, slash => true
  | percent, percent => true
  | caret, caret => true
  | openParen, openParen => true
  | closeParen, closeParen => true
  | comma, comma => true
  | group inner, group other => inner == other
  | identifier name, identifier other => name == other
  | call tree, call other => tree == other
  | _, _ => false

instance : BEq Token := ⟨same⟩

end Token

/-- A token with the number of characters in front of it. -/
structure Placed where
  token : Token
  position : Nat

namespace Placed

def isValue (placed : Placed) : Bool := placed.token.isValue

instance : BEq Placed where
  beq placed other := placed.token == other.token && placed.position == other.position

end Placed

end Formula
