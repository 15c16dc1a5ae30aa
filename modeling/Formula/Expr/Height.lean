/-
The height of a formula: the number of levels of its tree.  It is found with a
list of the subtrees still to be visited, each with its level, so that a tree
of any height can be measured; `levels` states the same by recursion.
-/
import Formula.Expr.Basic

namespace Formula.Expr

mutual

/-- The number of nodes of a tree. -/
def nodes : Expr → Nat
  | number _ => 1
  | var _ => 1
  | call _ arguments _ => totalNodes arguments + 1
  | block inner => nodes inner + 1
  | unary _ operand => nodes operand + 1
  | binary _ left right => nodes left + nodes right + 1

def totalNodes : List Expr → Nat
  | [] => 0
  | expr :: rest => nodes expr + totalNodes rest

end

theorem totalNodes_append (exprs rest : List Expr) :
    totalNodes (exprs ++ rest) = totalNodes exprs + totalNodes rest := by
  induction exprs with
  | nil => simp [totalNodes]
  | cons expr tail ih => simp [totalNodes, ih]; omega

theorem nodes_eq_children (expr : Expr) : expr.nodes = totalNodes expr.children + 1 := by
  cases expr <;> simp [nodes, children, totalNodes]

/-- Subtrees still to be visited, each with the level of its root. -/
abbrev Pending := List (Expr × Nat)

/-- The nodes that a visit of the pending subtrees comes across. -/
def Pending.nodes (pending : Pending) : Nat := totalNodes (pending.map Prod.fst)

/-- The children of a node, one level below it. -/
def childrenBelow (expr : Expr) (level : Nat) : Pending := expr.children.map (·, level + 1)

theorem nodes_visit_lt (expr : Expr) (level : Nat) (rest : Pending) :
    Pending.nodes (expr.childrenBelow level ++ rest) < Pending.nodes ((expr, level) :: rest) := by
  simp [Pending.nodes, childrenBelow, totalNodes_append, totalNodes, nodes_eq_children,
    Function.comp_def]

/-- Visits the pending subtrees and returns the highest level found. -/
def highest (found : Nat) : Pending → Nat
  | [] => found
  | (expr, level) :: rest => highest (max found level) (expr.childrenBelow level ++ rest)
termination_by pending => pending.nodes
decreasing_by exact nodes_visit_lt expr level rest

def height (expr : Expr) : Nat := highest 0 [(expr, 1)]

mutual

/-- The height by recursion on the tree. -/
def levels : Expr → Nat
  | number _ => 1
  | var _ => 1
  | call _ arguments _ => maxLevels arguments + 1
  | block inner => levels inner + 1
  | unary _ operand => levels operand + 1
  | binary _ left right => max (levels left) (levels right) + 1

def maxLevels : List Expr → Nat
  | [] => 0
  | expr :: rest => max (levels expr) (maxLevels rest)

end

end Formula.Expr
