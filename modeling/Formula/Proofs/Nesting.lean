/-
How deep formulas nest.  The nesting counts the parentheses and calls on a path.  The
parser counts less: calls collapse before parentheses do, so the parentheses around a
call and those inside of its arguments are never counted together with those that the
arguments are collapsed in.
-/
import Formula.Proofs.TokenClass
import Formula.Proofs.Height
import Mathlib.Tactic.Ring

namespace Formula

namespace Expr

/-- How many parentheses stand around each other outside of calls. -/
def groupDepth : Expr → Nat
  | number _ => 0
  | var _ => 0
  | call _ _ _ => 0
  | block inner => groupDepth inner + 1
  | unary _ operand => groupDepth operand
  | binary _ left right => max (groupDepth left) (groupDepth right)

mutual

/-- How deep the arguments of calls are read.  The parentheses around a call do not
count. -/
def callDepth : Expr → Nat
  | number _ => 0
  | var _ => 0
  | call _ arguments _ => max 1 (argumentsDepth arguments)
  | block inner => callDepth inner
  | unary _ operand => callDepth operand
  | binary _ left right => max (callDepth left) (callDepth right)

def argumentsDepth : List Expr → Nat
  | [] => 0
  | expr :: rest => max (max (callDepth expr) (groupDepth expr) + 1) (argumentsDepth rest)

end

/-- How deep the parser goes into a formula. -/
def countedDepth (expr : Expr) : Nat := max expr.callDepth expr.groupDepth

mutual

/-- The most parentheses and calls on a path from the root to a leaf. -/
def nesting : Expr → Nat
  | number _ => 0
  | var _ => 0
  | call _ arguments _ => maxNesting arguments + 1
  | block inner => nesting inner + 1
  | unary _ operand => nesting operand
  | binary _ left right => max (nesting left) (nesting right)

def maxNesting : List Expr → Nat
  | [] => 0
  | expr :: rest => max (nesting expr) (maxNesting rest)

end

/-- The arguments of the calls that no call stands around. -/
def callArguments : Expr → List Expr
  | number _ => []
  | var _ => []
  | call _ arguments _ => arguments
  | block inner => callArguments inner
  | unary _ operand => callArguments operand
  | binary _ left right => callArguments left ++ callArguments right

/-- What stands in the outermost parentheses, calls left out. -/
def groups : Expr → List Expr
  | number _ => []
  | var _ => []
  | call _ _ _ => []
  | block inner => [inner]
  | unary _ operand => groups operand
  | binary _ left right => groups left ++ groups right

theorem groupDepth_le_iff {tree : Expr} {bound : Nat} :
    tree.groupDepth ≤ bound ↔ ∀ inner ∈ tree.groups, inner.groupDepth < bound := by
  fun_induction groups tree with
  | case1 | case2 | case3 => simp [groupDepth]
  | case4 inner =>
      rw [groupDepth, List.forall_mem_singleton]
      exact Nat.succ_le_iff
  | case5 op operand ih => simpa [groupDepth] using ih
  | case6 op left right ihleft ihright =>
      simp only [groupDepth, Nat.max_le, ihleft, ihright, List.mem_append]
      constructor
      · rintro ⟨hleft, hright⟩ inner (hinner | hinner)
        · exact hleft inner hinner
        · exact hright inner hinner
      · exact fun h => ⟨fun inner hinner => h inner (.inl hinner),
          fun inner hinner => h inner (.inr hinner)⟩

theorem argumentsDepth_le_iff {arguments : List Expr} {bound : Nat} :
    argumentsDepth arguments ≤ bound ↔ ∀ argument ∈ arguments, argument.countedDepth < bound := by
  induction arguments with
  | nil => simp [argumentsDepth]
  | cons argument rest ih =>
      rw [argumentsDepth, Nat.max_le, ih, List.forall_mem_cons, countedDepth]
      exact and_congr_left fun _ => Nat.succ_le_iff

theorem countedDepth_lt_of_mem_callArguments {tree argument : Expr}
    (h : argument ∈ tree.callArguments) : argument.countedDepth < tree.callDepth := by
  fun_induction callArguments tree with
  | case1 | case2 => cases h
  | case3 name arguments implementation =>
      have hlt := argumentsDepth_le_iff.1 (Nat.le_refl _) argument h
      exact Nat.lt_of_lt_of_le hlt (Nat.le_max_right _ _)
  | case4 inner ih => exact ih h
  | case5 op operand ih => exact ih h
  | case6 op left right ihleft ihright =>
      rcases List.mem_append.1 h with h | h
      · exact Nat.lt_of_lt_of_le (ihleft h) (Nat.le_max_left _ _)
      · exact Nat.lt_of_lt_of_le (ihright h) (Nat.le_max_right _ _)

theorem callDepth_call_le {function : Function} {arguments : List Expr} {bound : Nat}
    (hne : arguments ≠ []) (h : ∀ argument ∈ arguments, argument.countedDepth < bound) :
    (function.call arguments).callDepth ≤ bound := by
  obtain ⟨first, rest, rfl⟩ := List.exists_cons_of_ne_nil hne
  have hfirst := h first List.mem_cons_self
  exact Nat.max_le.2 ⟨by omega, argumentsDepth_le_iff.2 h⟩

theorem mul_succ_le_mul_succ {depth more : Nat} (h : depth ≤ more) :
    depth * (depth + 1) ≤ more * (more + 1) :=
  Nat.mul_le_mul h (Nat.succ_le_succ h)

/-- One level above trees that go down by less. -/
theorem nesting_step {nested groups calls bound : Nat}
    (h : 2 * nested ≤ 2 * groups + calls * (calls + 1)) (hcounted : max calls groups < bound) :
    2 * nested + 2 ≤ bound * (bound + 1) := by
  obtain ⟨below, rfl⟩ : ∃ below, bound = below + 1 := ⟨bound - 1, by omega⟩
  have hcalls : calls ≤ below := by omega
  have hmono := mul_succ_le_mul_succ hcalls
  have hexpand : (below + 1) * (below + 1 + 1) = below * (below + 1) + 2 * (below + 1) := by ring
  omega

mutual

/-- The nesting is bounded in terms of what is counted: below a call that is read at
a depth there stand as many parentheses as are still allowed there. -/
theorem nesting_le (tree : Expr) :
    2 * tree.nesting ≤ 2 * tree.groupDepth + tree.callDepth * (tree.callDepth + 1) := by
  cases tree with
  | number value => exact Nat.zero_le _
  | var name => exact Nat.zero_le _
  | call name arguments implementation =>
      have hle := maxNesting_le arguments (Nat.le_max_left 1 (argumentsDepth arguments))
        (Nat.le_max_right 1 (argumentsDepth arguments))
      simp only [nesting, groupDepth, callDepth]
      omega
  | block inner =>
      have hinner := nesting_le inner
      simp only [nesting, groupDepth, callDepth]
      omega
  | unary op operand => exact nesting_le operand
  | binary op left right =>
      have hleft := nesting_le left
      have hright := nesting_le right
      simp only [nesting, groupDepth, callDepth]
      have hleftMono := mul_succ_le_mul_succ (Nat.le_max_left left.callDepth right.callDepth)
      have hrightMono := mul_succ_le_mul_succ (Nat.le_max_right left.callDepth right.callDepth)
      omega

theorem maxNesting_le (arguments : List Expr) {bound : Nat} (hpos : 1 ≤ bound)
    (h : argumentsDepth arguments ≤ bound) :
    2 * maxNesting arguments + 2 ≤ bound * (bound + 1) := by
  cases arguments with
  | nil =>
      have hmono := mul_succ_le_mul_succ hpos
      simp only [maxNesting]
      omega
  | cons first rest =>
      obtain ⟨hfirst, hrest⟩ := Nat.max_le.1 h
      have hfirstLe := nesting_step (nesting_le first) (Nat.lt_of_succ_le hfirst)
      have hrestLe := maxNesting_le rest hpos hrest
      simp only [maxNesting]
      omega

end

/-- Whether a call stands anywhere in the tree. -/
def hasCall : Expr → Bool
  | number _ => false
  | var _ => false
  | call _ _ _ => true
  | block inner => hasCall inner
  | unary _ operand => hasCall operand
  | binary _ left right => hasCall left || hasCall right

mutual

/-- Whether a call stands inside of parentheses. -/
def callInGroup : Expr → Bool
  | number _ => false
  | var _ => false
  | call _ arguments _ => anyCallInGroup arguments
  | block inner => hasCall inner
  | unary _ operand => callInGroup operand
  | binary _ left right => callInGroup left || callInGroup right

def anyCallInGroup : List Expr → Bool
  | [] => false
  | expr :: rest => callInGroup expr || anyCallInGroup rest

end

theorem nesting_eq_groupDepth {tree : Expr} (h : tree.hasCall = false) :
    tree.nesting = tree.groupDepth := by
  induction tree using hasCall.induct with
  | case1 | case2 => rfl
  | case3 => cases h
  | case4 inner ih => exact congrArg (· + 1) (ih h)
  | case5 op operand ih => exact ih h
  | case6 op left right ihleft ihright =>
      obtain ⟨hleft, hright⟩ := Bool.or_eq_false_iff.1 h
      rw [nesting, groupDepth, ihleft hleft, ihright hright]

mutual

/-- Without calls in parentheses all levels are counted. -/
theorem nesting_le_countedDepth (tree : Expr) (h : tree.callInGroup = false) :
    tree.nesting ≤ tree.countedDepth := by
  cases tree with
  | number value => exact Nat.zero_le _
  | var name => exact Nat.zero_le _
  | call name arguments implementation =>
      have harguments := maxNesting_lt_argumentsDepth h
      simp only [nesting, countedDepth, callDepth, groupDepth]
      omega
  | block inner =>
      have hinner : inner.nesting = inner.groupDepth := nesting_eq_groupDepth h
      simp only [nesting, countedDepth, callDepth, groupDepth]
      omega
  | unary op operand => exact nesting_le_countedDepth operand h
  | binary op left right =>
      obtain ⟨hleft, hright⟩ := Bool.or_eq_false_iff.1 h
      have hleftLe := nesting_le_countedDepth left hleft
      have hrightLe := nesting_le_countedDepth right hright
      simp only [nesting, countedDepth, callDepth, groupDepth] at hleftLe hrightLe ⊢
      omega

theorem maxNesting_lt_argumentsDepth {arguments : List Expr}
    (h : anyCallInGroup arguments = false) :
    maxNesting arguments < max 1 (argumentsDepth arguments) := by
  cases arguments with
  | nil => exact Nat.lt_of_lt_of_le Nat.zero_lt_one (Nat.le_max_left _ _)
  | cons first rest =>
      obtain ⟨hfirst, hrest⟩ := Bool.or_eq_false_iff.1 h
      have hfirstLe := nesting_le_countedDepth first hfirst
      have hrestLt := maxNesting_lt_argumentsDepth hrest
      simp only [maxNesting, argumentsDepth, countedDepth] at hfirstLe ⊢
      omega

end

theorem lt_levels_binary {op : BinaryOperator} {left right : Expr} {level : Nat}
    (h : level < left.levels ∨ level < right.levels) : level < (binary op left right).levels := by
  rw [levels]
  omega

theorem levels_lt_of_mem_groups {tree inner : Expr} (h : inner ∈ tree.groups) :
    inner.levels < tree.levels := by
  fun_induction groups tree with
  | case1 | case2 | case3 => cases h
  | case4 found =>
      obtain rfl := List.mem_singleton.1 h
      exact Nat.lt_succ_self _
  | case5 op operand ih => exact Nat.lt_succ_of_lt (ih h)
  | case6 op left right ihleft ihright =>
      exact lt_levels_binary ((List.mem_append.1 h).imp ihleft ihright)

theorem levels_lt_of_mem_callArguments {tree argument : Expr} (h : argument ∈ tree.callArguments) :
    argument.levels < tree.levels := by
  fun_induction callArguments tree with
  | case1 | case2 => cases h
  | case3 name arguments implementation => exact Nat.lt_succ_of_le (levels_le_maxLevels h)
  | case4 inner ih => exact Nat.lt_succ_of_lt (ih h)
  | case5 op operand ih => exact Nat.lt_succ_of_lt (ih h)
  | case6 op left right ihleft ihright =>
      exact lt_levels_binary ((List.mem_append.1 h).imp ihleft ihright)

end Expr

namespace Token

variable {token : Token} {tree : Expr}

theorem groupDepth_of_isScanned (htree : token.tree? = some tree)
    (h : token.isScanned = true) : tree.groupDepth = 0 := by
  cases token <;> cases htree <;> first | rfl | cases h

theorem callDepth_of_isScanned (htree : token.tree? = some tree)
    (h : token.isScanned = true) : tree.callDepth = 0 := by
  cases token <;> cases htree <;> first | rfl | cases h

end Token

end Formula
