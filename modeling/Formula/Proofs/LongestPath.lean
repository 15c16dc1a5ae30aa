/-
What a visit of pending subtrees finds.  Subtrees may be taken up in any order: every round
trades a node for its children, so the visit ends, and the highest level that it has met
then is the height.  The height is the number of nodes on a longest path from the root to a
leaf.
-/
import Formula.Proofs.Height
import Mathlib.Logic.Relation

namespace Formula.Expr

/-! Visits. -/

theorem totalNodes_perm {exprs other : List Expr} (h : exprs.Perm other) :
    totalNodes exprs = totalNodes other := by
  induction h with
  | nil => rfl
  | cons expr _ ih => rw [totalNodes, totalNodes, ih]
  | swap expr next rest => simp only [totalNodes, Nat.add_left_comm]
  | trans _ _ ihfirst ihsecond => exact ihfirst.trans ihsecond

theorem Pending.nodes_perm {pending other : Pending} (h : pending.Perm other) :
    pending.nodes = other.nodes :=
  totalNodes_perm (h.map _)

theorem Pending.reach_perm {pending other : Pending} (h : pending.Perm other) :
    pending.reach = other.reach := by
  induction h with
  | nil => rfl
  | cons visit _ ih => rw [reach, reach, ih]
  | swap visit next rest => simp only [reach, Nat.max_left_comm]
  | trans _ _ ihfirst ihsecond => exact ihfirst.trans ihsecond

/-- The highest level met so far, and the subtrees that are still pending. -/
structure Visit where
  found : Nat
  pending : Pending

/-- The visit of a tree before its first round. -/
def Visit.start (expr : Expr) : Visit := ⟨0, [(expr, 1)]⟩

/-- A round takes up one of the pending subtrees, wherever it stands among them, and leaves its
children in its place, wherever they are put. -/
inductive Visit.Round : Visit → Visit → Prop
  | visit {found level : Nat} {expr : Expr} {pending rest next : Pending}
      (htaken : pending.Perm ((expr, level) :: rest))
      (hnext : next.Perm (expr.childrenBelow level ++ rest)) :
      Round ⟨found, pending⟩ ⟨max found level, next⟩

namespace Visit

/-- The level that a visit will have met when it ends. -/
def reach (visit : Visit) : Nat := max visit.found visit.pending.reach

theorem reach_start (expr : Expr) : (start expr).reach = expr.height := by
  rw [reach, ← highest_eq_max]
  rfl

theorem Round.nodes_lt {visit next : Visit} (h : visit.Round next) :
    next.pending.nodes < visit.pending.nodes := by
  obtain ⟨htaken, hnext⟩ := h
  rw [Pending.nodes_perm htaken, Pending.nodes_perm hnext]
  exact nodes_visit_lt _ _ _

theorem Round.reach_eq {visit next : Visit} (h : visit.Round next) : next.reach = visit.reach := by
  obtain ⟨htaken, hnext⟩ := h
  rw [reach, reach, Pending.reach_perm htaken, Pending.reach_perm hnext, ← highest_eq_max,
    ← highest_eq_max, highest]

/-- No visit goes on for ever. -/
theorem wellFounded_round : WellFounded fun next visit : Visit => visit.Round next :=
  Subrelation.wf Round.nodes_lt (measure fun visit : Visit => visit.pending.nodes).wf

theorem exists_round (found : Nat) (first : Expr × Nat) (rest : Pending) :
    ∃ next, Round ⟨found, first :: rest⟩ next := ⟨_, .visit (.refl _) (.refl _)⟩

/-- What is reached does not change from round to round. -/
theorem reach_eq_of_rounds {visit last : Visit} (h : Relation.ReflTransGen Round visit last) :
    last.reach = visit.reach := by
  induction h with
  | refl => rfl
  | tail _ hround ih => exact hround.reach_eq.trans ih

/-- A visit goes on, or it has ended and found the height. -/
theorem exists_round_or_eq {expr : Expr} {last : Visit}
    (h : Relation.ReflTransGen Round (start expr) last) :
    (∃ next, last.Round next) ∨ last = ⟨expr.height, []⟩ := by
  obtain ⟨found, pending⟩ := last
  cases pending with
  | nil =>
      have hfound := reach_eq_of_rounds h
      rw [reach_start, reach, Pending.reach, Nat.max_zero] at hfound
      exact .inr (by rw [← hfound])
  | cons first rest => exact .inl (exists_round found first rest)

end Visit

/-! Paths. -/

/-- The nodes from the root down to a leaf.  A call without arguments is a leaf. -/
inductive Path : Expr → List Expr → Prop
  | leaf {expr : Expr} (hleaf : expr.children = []) : Path expr [expr]
  | down {expr child : Expr} {nodes : List Expr} (hchild : child ∈ expr.children)
      (hpath : Path child nodes) : Path expr (expr :: nodes)

theorem maxLevels_eq_max? (exprs : List Expr) :
    maxLevels exprs = (exprs.map levels).max?.getD 0 := by
  induction exprs with
  | nil => rfl
  | cons expr rest ih =>
      rw [maxLevels, ih, List.map_cons, List.max?_cons]
      cases (rest.map levels).max? with
      | none => exact Nat.max_zero _
      | some largest => rfl

theorem exists_levels_eq_maxLevels {exprs : List Expr} (hne : exprs ≠ []) :
    ∃ expr ∈ exprs, expr.levels = maxLevels exprs := by
  obtain ⟨largest, hlargest⟩ : ∃ largest, (exprs.map levels).max? = some largest :=
    Option.isSome_iff_exists.1 (List.isSome_max?_of_ne_nil (by simpa using hne))
  obtain ⟨expr, hmem, hlevels⟩ := List.mem_map.1 (List.max?_mem hlargest)
  refine ⟨expr, hmem, ?_⟩
  rw [maxLevels_eq_max?, hlargest, hlevels]
  rfl

theorem Path.length_le {expr : Expr} {nodes : List Expr} (h : expr.Path nodes) :
    nodes.length ≤ expr.levels := by
  induction h with
  | leaf hleaf => exact levels_pos _
  | @down expr child nodes hchild hpath ih =>
      rw [levels_eq_children, List.length_cons]
      exact Nat.succ_le_succ (Nat.le_trans ih (levels_le_maxLevels hchild))

/-- Going down to a highest child at every node is a path that no other one exceeds. -/
theorem exists_path_length_eq (expr : Expr) :
    ∃ nodes, expr.Path nodes ∧ nodes.length = expr.levels := by
  induction hlevels : expr.levels using Nat.strongRecOn generalizing expr with
  | ind levels ih =>
      subst hlevels
      rw [levels_eq_children]
      by_cases hleaf : expr.children = []
      · exact ⟨[expr], .leaf hleaf, by rw [hleaf]; rfl⟩
      · obtain ⟨child, hchild, hmax⟩ := exists_levels_eq_maxLevels hleaf
        have hlt : child.levels < expr.levels := by
          rw [expr.levels_eq_children, hmax]
          exact Nat.lt_succ_self _
        obtain ⟨nodes, hpath, hlength⟩ := ih child.levels hlt child rfl
        exact ⟨expr :: nodes, .down hchild hpath, by rw [List.length_cons, hlength, hmax]⟩

/-- The height of a tree is one for a leaf and else one more than the largest height among the
children.  It is the number of nodes on a longest path from the root to a leaf.  In whatever
order the pending subtrees are taken up, a visit of the tree ends, and goes on until it has
found the height. -/
theorem height_eq_longest_path (expr : Expr) :
    expr.height = (expr.children.map height).max?.getD 0 + 1 ∧
    (∃ nodes, expr.Path nodes ∧ nodes.length = expr.height) ∧
    (∀ nodes, expr.Path nodes → nodes.length ≤ expr.height) ∧
    Acc (fun next visit => Visit.Round visit next) (.start expr) ∧
    ∀ last, Relation.ReflTransGen Visit.Round (.start expr) last →
      (∃ next, last.Round next) ∨ last = ⟨expr.height, []⟩ := by
  have hheight : height = levels := funext height_eq_levels
  refine ⟨?_, ?_, ?_, Visit.wellFounded_round.apply _, fun _ => Visit.exists_round_or_eq⟩
  · rw [hheight, levels_eq_children, maxLevels_eq_max?]
  · rw [hheight]
    exact exists_path_length_eq expr
  · rw [hheight]
    exact fun nodes hpath => hpath.length_le

/-- The tree of `max(abs(), -x)`, in which a call without arguments is a leaf. -/
def emptyCall : Expr :=
  call "max" [call "abs" [] (.builtin .abs), unary .negate (var "x")] (.builtin .max)

theorem height_eq_longest_path_emptyCall : emptyCall.height = 3 ∧
    (∃ nodes, emptyCall.Path nodes ∧ nodes.length = 3) ∧
    (∀ nodes, emptyCall.Path nodes → nodes.length ≤ 3) ∧
    (call "abs" [] (.builtin .abs)).height = 1 := by
  have hheight : emptyCall.height = 3 := by decide +kernel
  obtain ⟨_, hexists, hbound, _⟩ := height_eq_longest_path emptyCall
  rw [hheight] at hexists hbound
  exact ⟨hheight, hexists, hbound, (height_eq_longest_path (call "abs" [] (.builtin .abs))).1⟩

end Formula.Expr
