/-
Tokens between matching parentheses.  Both functions start behind an opening
parenthesis and count the parentheses opened since.
-/
import Formula.Token.Basic

namespace Formula

/-- The tokens of one argument and the position of the comma or parenthesis that
ends it. -/
structure Span where
  tokens : List Placed
  stop : Nat

/-- Splits an argument list at its own commas.  The result holds the arguments
that end, and the tokens behind the list where it closes. -/
def splitArguments (depth : Nat) (current : List Placed) :
    List Placed → List Span × Option (List Placed)
  | [] => ([], none)
  | placed :: rest =>
      match placed.token, depth with
      | .closeParen, 0 => ([⟨current.reverse, placed.position⟩], some rest)
      | .closeParen, depth + 1 => splitArguments depth (placed :: current) rest
      | .openParen, depth => splitArguments (depth + 1) (placed :: current) rest
      | .comma, 0 =>
          let (spans, after) := splitArguments 0 [] rest
          (⟨current.reverse, placed.position⟩ :: spans, after)
      | _, depth => splitArguments depth (placed :: current) rest

/-- The tokens of a group and those behind it, if the group closes. -/
def splitGroup (depth : Nat) (current : List Placed) :
    List Placed → Option (List Placed × List Placed)
  | [] => none
  | placed :: rest =>
      match placed.token, depth with
      | .closeParen, 0 => some (current.reverse, rest)
      | .closeParen, depth + 1 => splitGroup depth (placed :: current) rest
      | .openParen, depth => splitGroup (depth + 1) (placed :: current) rest
      | _, depth => splitGroup depth (placed :: current) rest

theorem length_lt_of_splitArguments {depth : Nat} {current tokens after : List Placed}
    {spans : List Span} (h : splitArguments depth current tokens = (spans, some after)) :
    after.length < tokens.length := by
  induction tokens generalizing depth current spans with
  | nil => simp [splitArguments] at h
  | cons placed rest ih =>
      unfold splitArguments at h
      simp only [List.length_cons]
      split at h
      · obtain ⟨_, rfl⟩ : _ ∧ rest = after := by simpa using h
        exact Nat.lt_succ_self _
      · exact Nat.lt_succ_of_lt (ih h)
      · exact Nat.lt_succ_of_lt (ih h)
      · simp only [Prod.mk.injEq] at h
        exact Nat.lt_succ_of_lt (ih (Prod.ext rfl h.2))
      · exact Nat.lt_succ_of_lt (ih h)

theorem length_lt_of_splitGroup {depth : Nat} {current tokens inner after : List Placed}
    (h : splitGroup depth current tokens = some (inner, after)) :
    after.length < tokens.length := by
  induction tokens generalizing depth current with
  | nil => simp [splitGroup] at h
  | cons placed rest ih =>
      unfold splitGroup at h
      simp only [List.length_cons]
      split at h
      · obtain ⟨_, rfl⟩ : _ ∧ rest = after := by simpa using h
        exact Nat.lt_succ_self _
      · exact Nat.lt_succ_of_lt (ih h)
      · exact Nat.lt_succ_of_lt (ih h)
      · exact Nat.lt_succ_of_lt (ih h)

end Formula
