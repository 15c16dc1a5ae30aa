/-
Two parsers side by side.  The first one may be refused where the second one goes on, and
a fault of that kind is excused; everything else they do alike.  If that holds of what
stands between parentheses it holds of the passes around it.
-/
import Formula.Proofs.Collapse.Calls
import Formula.Proofs.Collapse.Groups

namespace Formula

/-- The outcomes are the same, unless the first one is a fault that is excused. -/
def AgreesUnless {α : Type} (excused : ParseFault → Prop) (first second : Except ParseError α) :
    Prop :=
  (∃ error, first = .error error ∧ excused error.fault) ∨ first = second

namespace AgreesUnless

variable {α β : Type} {excused : ParseFault → Prop} {first second : Except ParseError α}

theorem refl (outcome : Except ParseError α) : AgreesUnless excused outcome outcome := .inr rfl

theorem of_excused {error : ParseError} (h : excused error.fault) :
    AgreesUnless excused (.error error) second := .inl ⟨error, rfl, h⟩

theorem bind {next other : α → Except ParseError β} (h : AgreesUnless excused first second)
    (hnext : ∀ value, AgreesUnless excused (next value) (other value)) :
    AgreesUnless excused (first >>= next) (second >>= other) := by
  rcases h with ⟨error, rfl, hexcused⟩ | rfl
  · exact .inl ⟨error, rfl, hexcused⟩
  · cases first with
    | error error => exact .inr rfl
    | ok value => exact hnext value

theorem mapM {step other : β → Except ParseError α}
    (hstep : ∀ input, AgreesUnless excused (step input) (other input)) (inputs : List β) :
    AgreesUnless excused (inputs.mapM step) (inputs.mapM other) := by
  induction inputs with
  | nil => exact .refl _
  | cons input inputs ih =>
      rw [List.mapM_cons, List.mapM_cons]
      apply (hstep input).bind
      intro result
      apply ih.bind
      intro results
      exact .refl _

section Passes

variable {parse other : InnerParser} {settings otherSettings : Settings}
  (hparse : ∀ tokens, AgreesUnless excused (parse tokens) (other tokens))

include hparse

theorem parseArgument (span : Span) :
    AgreesUnless excused (parseArgument parse span) (parseArgument other span) := by
  unfold Formula.parseArgument
  split
  · exact .refl _
  · exact hparse span.tokens

theorem collapseCalls
    (hcall : ∀ name position arguments, AgreesUnless excused
      (bindCall settings name position arguments) (bindCall otherSettings name position arguments))
    (tokens : List Placed) :
    AgreesUnless excused (collapseCalls parse settings tokens)
      (collapseCalls other otherSettings tokens) := by
  induction tokens using calls_induction with
  | nil =>
      rw [collapseCalls_nil, collapseCalls_nil]
      exact .refl _
  | call name position opening rest spans after hsplit ih =>
      rw [collapseCalls_call hsplit, collapseCalls_call hsplit]
      apply (mapM (parseArgument hparse) spans).bind
      intro arguments
      apply (hcall name position arguments).bind
      intro call
      apply ih.bind
      intro short
      exact .refl _
  | unclosed name position opening rest spans hsplit =>
      rw [collapseCalls_unclosed hsplit, collapseCalls_unclosed hsplit]
      apply (mapM (parseArgument hparse) spans).bind
      intro arguments
      exact .refl _
  | keep placed rest hseam ih =>
      rw [collapseCalls_keep hseam, collapseCalls_keep hseam]
      apply ih.bind
      intro short
      exact .refl _

theorem collapseGroups (tokens : List Placed) :
    AgreesUnless excused (collapseGroups parse tokens) (collapseGroups other tokens) := by
  induction tokens using groups_induction with
  | nil =>
      rw [collapseGroups_nil, collapseGroups_nil]
      exact .refl _
  | empty opening rest after hsplit =>
      rw [collapseGroups_empty hsplit, collapseGroups_empty hsplit]
      exact .refl _
  | group opening rest inner after hsplit hne ih =>
      rw [collapseGroups_group hsplit hne, collapseGroups_group hsplit hne]
      apply (hparse inner).bind
      intro tree
      apply ih.bind
      intro short
      exact .refl _
  | unclosed opening rest hsplit =>
      rw [collapseGroups_unclosed hsplit, collapseGroups_unclosed hsplit]
      exact .refl _
  | unmatched closing rest =>
      rw [collapseGroups_unmatched, collapseGroups_unmatched]
      exact .refl _
  | keep placed rest hopen hclose ih =>
      rw [collapseGroups_keep hopen hclose, collapseGroups_keep hopen hclose]
      apply ih.bind
      intro short
      exact .refl _

end Passes

end AgreesUnless

end Formula
