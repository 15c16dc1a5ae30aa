/-
The height found by visiting pending subtrees is the height by recursion.
-/
import Formula.Expr.Height

namespace Formula.Expr

theorem levels_eq_children (expr : Expr) : expr.levels = maxLevels expr.children + 1 := by
  cases expr <;> simp [levels, maxLevels, children]

theorem levels_pos (expr : Expr) : 0 < expr.levels := by
  rw [levels_eq_children]
  exact Nat.succ_pos _

theorem levels_le_maxLevels {exprs : List Expr} {expr : Expr} (h : expr ∈ exprs) :
    expr.levels ≤ maxLevels exprs := by
  induction exprs with
  | nil => cases h
  | cons first rest ih =>
      rw [maxLevels]
      rcases List.mem_cons.1 h with rfl | h
      · exact Nat.le_max_left _ _
      · exact Nat.le_trans (ih h) (Nat.le_max_right _ _)

/-- The highest level that a visit of the pending subtrees comes across. -/
def Pending.reach : Pending → Nat
  | [] => 0
  | (expr, level) :: rest => max (level + expr.levels - 1) (reach rest)

theorem Pending.reach_append (pending rest : Pending) :
    Pending.reach (pending ++ rest) = max pending.reach (Pending.reach rest) := by
  induction pending with
  | nil => simp [reach]
  | cons visit pending ih =>
      rw [List.cons_append, reach, ih, reach, Nat.max_assoc]

/-- The level of a node together with the levels below it. -/
theorem max_reach_below (exprs : List Expr) (level : Nat) :
    max level (Pending.reach (exprs.map (·, level + 1))) = level + maxLevels exprs := by
  induction exprs with
  | nil => simp [Pending.reach, maxLevels]
  | cons expr rest ih =>
      have hpos := expr.levels_pos
      simp only [List.map_cons, Pending.reach, maxLevels]
      omega

/-- What the visit finds is what it found before or what it comes across: every
visit trades a node for its children, one level below. -/
theorem highest_eq_max (found : Nat) (pending : Pending) :
    highest found pending = max found pending.reach := by
  induction found, pending using highest.induct with
  | case1 found => simp [highest, Pending.reach]
  | case2 found expr level rest ih =>
      have hbelow := max_reach_below expr.children level
      have hlevels := expr.levels_eq_children
      rw [highest, ih, Pending.reach_append, Pending.reach, childrenBelow]
      omega

theorem height_eq_levels (expr : Expr) : expr.height = expr.levels := by
  have hpos := expr.levels_pos
  rw [height, highest_eq_max]
  simp only [Pending.reach]
  omega

end Formula.Expr
