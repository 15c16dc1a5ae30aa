/-
Formulas as text.  No parentheses are added, since a tree keeps its own.
-/
import Formula.Expr.Basic
import Formula.NumberFormat

namespace Formula

/-- How a formula is laid out: the spaces around binary operators and after the
commas of arguments, and the format of numbers. -/
structure Layout where
  spacing : Nat := 1
  format : NumberFormat := default
deriving DecidableEq, Repr

namespace Layout

def gap (layout : Layout) : List Char := List.replicate layout.spacing ' '

/-- The comma after an argument.  Where a comma also separates decimals, a space
keeps it from continuing a number in front of it. -/
def comma (layout : Layout) (argument : List Char) : List Char :=
  let touches := layout.format.decimalSeparator == ',' && argument.getLast?.any Char.isDigit
  (if touches then [' ', ','] else [',']) ++ layout.gap

def separateArguments (layout : Layout) : List (List Char) → List Char
  | [] => []
  | [argument] => argument
  | argument :: next :: rest =>
      argument ++ layout.comma argument ++ layout.separateArguments (next :: rest)

end Layout

namespace Expr

mutual

def text (layout : Layout) : Expr → List Char
  | number value => layout.format.write value
  | var name => name.toList
  | call name arguments _ =>
      name.toList ++ '(' :: layout.separateArguments (texts layout arguments) ++ [')']
  | block inner => '(' :: text layout inner ++ [')']
  | unary op operand => op.symbol :: text layout operand
  | binary op left right =>
      text layout left ++ layout.gap ++ op.symbol :: layout.gap ++ text layout right

def texts (layout : Layout) : List Expr → List (List Char)
  | [] => []
  | expr :: rest => text layout expr :: texts layout rest

end

def render (layout : Layout) (expr : Expr) : String := String.ofList (expr.text layout)

instance : ToString Expr := ⟨render {}⟩

end Expr

end Formula
