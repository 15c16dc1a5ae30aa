/-
How high a tree can be that is read from given tokens.  Every token adds one level at
most, or as many as the tree has that it carries; and the tree of the whole is at least as
high as the trees of its tokens.
-/
import Formula.Proofs.Collapse.Collapsed
import Formula.Proofs.Height

namespace Formula

/-- The levels that a token adds to a tree, at most. -/
def Token.extent (token : Token) : Nat := (token.tree?.map Expr.levels).getD 1

theorem Token.extent_of_tree? {token : Token} {tree : Expr} (h : token.tree? = some tree) :
    token.extent = tree.levels := by
  rw [extent, h]
  rfl

theorem Token.extent_pos (token : Token) : 0 < token.extent := by
  unfold extent
  cases token.tree? with
  | none => exact Nat.zero_lt_one
  | some tree => exact tree.levels_pos

/-- The levels that tokens add to a tree, at most. -/
def extent : List Placed → Nat
  | [] => 0
  | placed :: rest => placed.token.extent + extent rest

theorem extent_cons (placed : Placed) (rest : List Placed) :
    extent (placed :: rest) = placed.token.extent + extent rest := rfl

theorem extent_append (left right : List Placed) :
    extent (left ++ right) = extent left + extent right := by
  induction left with
  | nil => exact (Nat.zero_add _).symm
  | cons placed left ih => rw [List.cons_append, extent_cons, extent_cons, ih, Nat.add_assoc]

theorem extent_le_of_segment {segment tokens : List Placed} (h : segment <:+: tokens) :
    extent segment ≤ extent tokens := by
  obtain ⟨before, after, rfl⟩ := h
  rw [extent_append, extent_append]
  omega

/-- The levels of trees on top of each other. -/
def Expr.totalLevels : List Expr → Nat
  | [] => 0
  | expr :: rest => expr.levels + totalLevels rest

theorem Expr.totalLevels_append (left right : List Expr) :
    totalLevels (left ++ right) = totalLevels left + totalLevels right := by
  induction left with
  | nil => exact (Nat.zero_add _).symm
  | cons expr left ih => rw [List.cons_append, totalLevels, totalLevels, ih, Nat.add_assoc]

/-- An operator stands above two operands, so an arrangement is no higher than its operands
on top of each other. -/
theorem Arrangement.levels_le_totalLevels (tree : Arrangement) :
    tree.expr.levels ≤ Expr.totalLevels tree.chain.operands := by
  induction tree with
  | operand tree => exact Nat.le_refl _
  | operator op left right ihleft ihright =>
      have hleft := left.expr.levels_pos
      have hright := right.expr.levels_pos
      rw [chain, Chain.operands_join, Expr.totalLevels_append, expr, Expr.levels]
      omega

theorem Arrangement.levels_le_expr (tree : Arrangement) :
    ∀ operand ∈ tree.chain.operands, operand.levels ≤ tree.expr.levels := by
  induction tree with
  | operand tree =>
      intro operand hoperand
      obtain rfl := List.mem_singleton.1 hoperand
      exact Nat.le_refl _
  | operator op left right ihleft ihright =>
      intro operand hoperand
      rw [chain, Chain.operands_join] at hoperand
      rw [expr, Expr.levels]
      rcases List.mem_append.1 hoperand with hoperand | hoperand
      · have := ihleft operand hoperand
        omega
      · have := ihright operand hoperand
        omega

/-- The levels of the operands of a chain are counted on top of each other. -/
def Phrase.extent : Phrase → Nat
  | value tree => tree.levels
  | operand tree => tree.levels
  | chain written => Expr.totalLevels written.operands
  | formula tree => tree.levels
  | arguments trees => Expr.maxLevels trees

theorem Phrase.extent_push (written : Chain) (op : BinaryOperator) (tree : Expr) :
    (chain (written.push op tree)).extent = (chain written).extent + tree.levels := by
  rw [extent, Chain.operands_push, Expr.totalLevels_append]
  rfl

theorem Derives.extent_le {settings : Settings} {phrase : Phrase} {tokens : List Placed}
    (h : Derives settings phrase tokens) : phrase.extent ≤ extent tokens := by
  induction h with
  | @token placed tree htree =>
      rw [extent_cons, Token.extent_of_tree? htree]
      exact Nat.le_add_right _ _
  | @call name position opening closing arguments function tokens harguments hfunction ih =>
      have hname := Token.extent_pos (.identifier name)
      simp only [Phrase.extent, Function.call, Expr.levels, extent_cons, extent_append] at ih ⊢
      omega
  | @group opening closing inner tokens hinner ih =>
      have hopen := Token.extent_pos .openParen
      simp only [Phrase.extent, Expr.levels, extent_cons, extent_append] at ih ⊢
      omega
  | bare hvalue ih => exact ih
  | @sign placed op tree tokens hop hoperand ih =>
      have hsign := placed.token.extent_pos
      simp only [Phrase.extent, Expr.levels, extent_cons] at ih ⊢
      omega
  | first hoperand ih => exact ih
  | operator hchain hop hoperand ihchain ihoperand =>
      rw [Phrase.extent_push, extent_append, extent_cons]
      simp only [Phrase.extent] at ihchain ihoperand ⊢
      omega
  | juxtaposed himplicit hchain hvalue hseam ihchain ihvalue =>
      rw [Phrase.extent_push, extent_append]
      simp only [Phrase.extent] at ihchain ihvalue ⊢
      omega
  | @formula tree tokens hchain hlayered ih => exact Nat.le_trans tree.levels_le_totalLevels ih
  | lastArgument hformula ih => exact Nat.max_le.2 ⟨ih, Nat.zero_le _⟩
  | argument hformula hrest ihformula ihrest =>
      rw [extent_append, extent_cons]
      simp only [Phrase.extent, Expr.maxLevels] at ihformula ihrest ⊢
      omega

/-- Values that collapse to single tokens add no more levels than before, and there are no
more tokens than before. -/
theorem Collapsed.extent_le {settings : Settings} {opens : Bool} {full short : List Placed}
    (h : Collapsed settings opens full short) :
    extent short ≤ extent full ∧ short.length ≤ full.length := by
  induction h with
  | nil => exact ⟨Nat.le_refl _, Nat.le_refl _⟩
  | @keep placed full short h ih =>
      rw [extent_cons, extent_cons, List.length_cons, List.length_cons]
      omega
  | @value placed tree tokens full short htree hname hvalue hends hstarts h ih =>
      have hextent : tree.levels ≤ Formula.extent tokens := hvalue.extent_le
      have hlength := List.length_pos_of_ne_nil hvalue.ne_nil
      rw [extent_cons, Token.extent_of_tree? htree, extent_append, List.length_cons,
        List.length_append]
      omega

/-- What the tree of a phrase is at least as high as. -/
def Phrase.Covers (level : Nat) : Phrase → Prop
  | value tree => level ≤ tree.levels
  | operand tree => level ≤ tree.levels
  | chain written => ∃ operand ∈ written.operands, level ≤ operand.levels
  | formula tree => level ≤ tree.levels
  | arguments trees => level ≤ Expr.maxLevels trees

theorem Phrase.covers_push {written : Chain} {op : BinaryOperator} {tree : Expr} {level : Nat}
    (h : (chain written).Covers level ∨ level ≤ tree.levels) :
    (chain (written.push op tree)).Covers level := by
  rw [Covers, Chain.operands_push]
  rcases h with ⟨operand, hoperand, hle⟩ | hle
  · exact ⟨operand, List.mem_append_left _ hoperand, hle⟩
  · exact ⟨tree, List.mem_append_right _ List.mem_cons_self, hle⟩

/-- A tree is as high as each of the trees that its tokens carry. -/
theorem Derives.covers {settings : Settings} {phrase : Phrase} {tokens : List Placed}
    (h : Derives settings phrase tokens) {placed : Placed} (hplaced : placed ∈ tokens)
    {carried : Expr} (hcarried : placed.token.tree? = some carried) :
    phrase.Covers carried.levels := by
  induction h with
  | token htree =>
      obtain rfl := List.mem_singleton.1 hplaced
      obtain rfl := Option.some.inj (htree.symm.trans hcarried)
      exact Nat.le_refl _
  | @call name position opening closing arguments function tokens harguments hfunction ih =>
      change carried.levels ≤ Expr.maxLevels arguments + 1
      simp only [List.mem_cons, List.mem_append, List.not_mem_nil, or_false] at hplaced
      rcases hplaced with rfl | rfl | hplaced | rfl
      · cases hcarried
        exact Nat.succ_le_succ (Nat.zero_le _)
      · cases hcarried
      · exact Nat.le_succ_of_le (ih hplaced)
      · cases hcarried
  | @group opening closing inner tokens hinner ih =>
      change carried.levels ≤ inner.levels + 1
      simp only [List.mem_cons, List.mem_append, List.not_mem_nil, or_false] at hplaced
      rcases hplaced with rfl | hplaced | rfl
      · cases hcarried
      · exact Nat.le_succ_of_le (ih hplaced)
      · cases hcarried
  | bare hvalue ih => exact ih hplaced
  | @sign sign op tree tokens hop hoperand ih =>
      change carried.levels ≤ tree.levels + 1
      rcases List.mem_cons.1 hplaced with rfl | hplaced
      · rw [Token.tree?_of_unary? hop] at hcarried
        cases hcarried
      · exact Nat.le_succ_of_le (ih hplaced)
  | @first tree tokens hoperand ih => exact ⟨tree, List.mem_cons_self, ih hplaced⟩
  | @operator chain sign op tree left right hchain hop hoperand ihchain ihoperand =>
      apply Phrase.covers_push
      rcases List.mem_append.1 hplaced with hplaced | hplaced
      · exact .inl (ihchain hplaced)
      · rcases List.mem_cons.1 hplaced with rfl | hplaced
        · rw [Token.tree?_of_binary? hop] at hcarried
          cases hcarried
        · exact .inr (ihoperand hplaced)
  | juxtaposed himplicit hchain hvalue hseam ihchain ihvalue =>
      apply Phrase.covers_push
      rcases List.mem_append.1 hplaced with hplaced | hplaced
      · exact .inl (ihchain hplaced)
      · exact .inr (ihvalue hplaced)
  | @formula tree tokens hchain hlayered ih =>
      obtain ⟨operand, hoperand, hle⟩ := ih hplaced
      exact Nat.le_trans hle (tree.levels_le_expr operand hoperand)
  | lastArgument hformula ih => exact Nat.le_trans (ih hplaced) (Nat.le_max_left _ _)
  | @argument tree trees position tokens rest hformula hrest ihformula ihrest =>
      rcases List.mem_append.1 hplaced with hplaced | hplaced
      · exact Nat.le_trans (ihformula hplaced) (Nat.le_max_left _ _)
      · rcases List.mem_cons.1 hplaced with rfl | hplaced
        · cases hcarried
        · exact Nat.le_trans (ihrest hplaced) (Nat.le_max_right _ _)

end Formula
