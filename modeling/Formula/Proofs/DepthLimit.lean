/-
What the limit of depth is worth.  It limits the depth that the parser counts.  Where
no call stands in parentheses that is how deep the formula nests; elsewhere a formula
may nest deeper than the limit, up to a bound that grows with its square.
-/
import Formula.Proofs.Parsing

namespace Formula

variable {settings : Settings} {tokens : List Placed} {tree : Expr}

/-- Another limit accepts the same tree exactly if it is no less than the counted
depth. -/
theorem parseTokens_limited_iff (hscanned : ∀ placed ∈ tokens, placed.token.isScanned = true)
    (h : settings.parseTokens tokens = .ok tree) (maxDepth : Nat) :
    { settings with maxDepth }.parseTokens tokens = .ok tree ↔ tree.countedDepth ≤ maxDepth := by
  obtain ⟨hderives, _, hlevels⟩ := (Settings.parseTokens_of_scanned hscanned).1 h
  rw [Settings.parseTokens_of_scanned hscanned]
  constructor
  · rintro ⟨_, hdepth, _⟩
    exact hdepth
  · intro hdepth
    exact ⟨hderives.limited maxDepth settings.maxHeight, hdepth, hlevels⟩

theorem nesting_le_of_countedDepth_le {limit : Nat} (h : tree.countedDepth ≤ limit) :
    2 * tree.nesting ≤ limit * (limit + 3) := by
  obtain ⟨hcalls, hgroups⟩ := Nat.max_le.1 h
  have hnesting := tree.nesting_le
  have hmono := Expr.mul_succ_le_mul_succ hcalls
  have hexpand : limit * (limit + 3) = limit * (limit + 1) + 2 * limit := by ring
  omega

/-- The limit of depth bounds the nesting of every tree without calls in parentheses.
In general only the counted depth is bounded, so the limits that the nesting of a
tree exceeds although they accept it are those between the two depths. -/
theorem nesting_of_parseTokens (hscanned : ∀ placed ∈ tokens, placed.token.isScanned = true)
    (h : settings.parseTokens tokens = .ok tree) :
    2 * tree.nesting ≤ settings.maxDepth * (settings.maxDepth + 3) ∧
      (tree.callInGroup = false → tree.nesting ≤ settings.maxDepth) ∧
      (∀ maxDepth, ({ settings with maxDepth }.parseTokens tokens = .ok tree ∧
          ¬ tree.nesting ≤ maxDepth) ↔ tree.countedDepth ≤ maxDepth ∧ maxDepth < tree.nesting) ∧
      ((∀ maxDepth, { settings with maxDepth }.parseTokens tokens = .ok tree →
          tree.nesting ≤ maxDepth) ↔ tree.nesting ≤ tree.countedDepth) := by
  have hdepth := (parseTokens_limited_iff hscanned h settings.maxDepth).1 h
  refine ⟨nesting_le_of_countedDepth_le hdepth, ?_, ?_, ?_⟩
  · intro hgroup
    exact Nat.le_trans (tree.nesting_le_countedDepth hgroup) hdepth
  · intro maxDepth
    rw [parseTokens_limited_iff hscanned h, Nat.not_le]
  · constructor
    · intro hlimits
      exact hlimits _ ((parseTokens_limited_iff hscanned h _).2 (Nat.le_refl _))
    · intro hle maxDepth hparse
      exact Nat.le_trans hle ((parseTokens_limited_iff hscanned h maxDepth).1 hparse)

/-- The tokens of `(abs(1))`. -/
def callInParentheses : List Placed :=
  [⟨.openParen, 0⟩, ⟨.identifier "abs", 1⟩, ⟨.openParen, 4⟩, ⟨.number 1, 5⟩, ⟨.closeParen, 6⟩,
    ⟨.closeParen, 7⟩]

theorem scanned_callInParentheses :
    ∀ placed ∈ callInParentheses, placed.token.isScanned = true := by
  simp [callInParentheses, Token.isScanned]

theorem parseTokens_callInParentheses :
    { Settings.standard with maxDepth := 1 }.parseTokens callInParentheses =
      .ok (.block (Builtin.abs.definition.call [.number 1])) := by
  have hone : Derives { Settings.standard with maxDepth := 1 } (.formula (.number 1))
      [⟨.number 1, 5⟩] := .of_value (.token rfl)
  have hcall : Derives { Settings.standard with maxDepth := 1 }
      (.value (Builtin.abs.definition.call [.number 1]))
      [⟨.identifier "abs", 1⟩, ⟨.openParen, 4⟩, ⟨.number 1, 5⟩, ⟨.closeParen, 6⟩] :=
    .call (.lastArgument hone) (Settings.function?_eq_some_iff.1 rfl)
  have hgroup : Derives { Settings.standard with maxDepth := 1 }
      (.value (.block (Builtin.abs.definition.call [.number 1]))) callInParentheses :=
    .group (.of_value hcall)
  exact (Settings.parseTokens_of_scanned scanned_callInParentheses).2
    ⟨.of_value hgroup, by decide, by decide⟩

/-- A limit of one accepts a call in parentheses, which nests twice. -/
theorem nesting_exceeds_maxDepth :
    ¬ ∀ (settings : Settings) (tokens : List Placed) (tree : Expr),
      (∀ placed ∈ tokens, placed.token.isScanned = true) →
      settings.parseTokens tokens = .ok tree → tree.nesting ≤ settings.maxDepth := by
  intro h
  have hle := h _ _ _ scanned_callInParentheses parseTokens_callInParentheses
  exact absurd hle (by decide)

theorem nesting_of_parseTokens_callInParentheses :
    (∀ placed ∈ callInParentheses, placed.token.isScanned = true) ∧
    { Settings.standard with maxDepth := 1 }.parseTokens callInParentheses =
      .ok (.block (Builtin.abs.definition.call [.number 1])) ∧
    2 * (Expr.block (Builtin.abs.definition.call [.number 1])).nesting ≤ 1 * (1 + 3) :=
  ⟨scanned_callInParentheses, parseTokens_callInParentheses,
    (nesting_of_parseTokens scanned_callInParentheses parseTokens_callInParentheses).1⟩

end Formula
