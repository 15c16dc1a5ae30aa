/-
Collapsing: every call and every parenthesised group becomes one token that
carries its tree.  Calls go first, so that the parentheses left over are those of
groups.  Both functions receive the parser of what stands between parentheses.
-/
import Formula.ParseError
import Formula.Settings
import Formula.Token.Delimited

namespace Formula

/-- Parses what stands between parentheses. -/
abbrev InnerParser := List Placed → Except ParseError Expr

def parseArgument (parse : InnerParser) (span : Span) : Except ParseError Expr :=
  if span.tokens.isEmpty then throw ⟨.emptyArgument, span.stop⟩ else parse span.tokens

/-- Binds a call to the function with its name and number of arguments. -/
def bindCall (settings : Settings) (name : String) (position : Nat) (arguments : List Expr) :
    Except ParseError Placed :=
  match settings.function? name arguments.length with
  | some function => pure ⟨.call (function.call arguments), position⟩
  | none => throw ⟨.unknownFunction name arguments.length, position⟩

/-- A name directly in front of a parenthesis opens a call.  The arguments that
end are parsed even where the list is never closed. -/
def collapseCalls (parse : InnerParser) (settings : Settings) :
    List Placed → Except ParseError (List Placed)
  | ⟨.identifier name, position⟩ :: ⟨.openParen, _⟩ :: rest =>
      match _h : splitArguments 0 [] rest with
      | (spans, some after) => do
          let arguments ← spans.mapM (parseArgument parse)
          let call ← bindCall settings name position arguments
          return call :: (← collapseCalls parse settings after)
      | (spans, none) => do
          let _ ← spans.mapM (parseArgument parse)
          throw ⟨.unclosedCall name, position⟩
  | placed :: rest => do return placed :: (← collapseCalls parse settings rest)
  | [] => pure []
termination_by tokens => tokens.length
decreasing_by
  · have := length_lt_of_splitArguments _h
    simp only [List.length_cons]
    omega
  · simp

/-- Every parenthesis opens a group. -/
def collapseGroups (parse : InnerParser) : List Placed → Except ParseError (List Placed)
  | [] => pure []
  | placed :: rest =>
      match placed.token with
      | .openParen =>
          match _h : splitGroup 0 [] rest with
          | some ([], _) => throw ⟨.emptyBlock, placed.position⟩
          | some (inner, after) => do
              let tree ← parse inner
              return ⟨.group tree, placed.position⟩ :: (← collapseGroups parse after)
          | none => throw ⟨.unclosedBlock, placed.position⟩
      | .closeParen => throw ⟨.unmatchedClose, placed.position⟩
      | _ => do return placed :: (← collapseGroups parse rest)
termination_by tokens => tokens.length
decreasing_by
  · have := length_lt_of_splitGroup _h
    simp only [List.length_cons]
    omega
  · simp

end Formula
