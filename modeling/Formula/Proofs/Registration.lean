/-
What registering a function changes.  A function is found behind those that have been there
before it, so a look-up changes only where nothing has been found.  A list of tokens is parsed
as before unless it has been refused for want of just this function, and for want of it nothing
is refused any more.
-/
import Formula.Proofs.Refusal

namespace Formula

/-- A function that is reported as unknown is not registered. -/
def ParseError.Unregistered (settings : Settings) (error : ParseError) : Prop :=
  ∀ name arity, error.fault = .unknownFunction name arity → settings.function? name arity = none

/-- The parser misses the function. -/
def Misses (function : Function) (outcome : Except ParseError Expr) : Prop :=
  ∃ position, outcome = .error ⟨.unknownFunction function.name function.arity, position⟩

theorem misses_or_eq_of_agreesUnless {function : Function} {first second : Except ParseError Expr}
    (h : AgreesUnless (· = .unknownFunction function.name function.arity) first second) :
    Misses function first ∨ first = second := by
  rcases h with ⟨⟨fault, position⟩, rfl, rfl⟩ | heq
  · exact .inl ⟨position, rfl⟩
  · exact .inr heq

namespace Settings

variable {settings : Settings} {function : Function}

theorem function?_register_self (settings : Settings) (function : Function) :
    (settings.register function).function? function.name function.arity ≠ none := by
  rw [function?_register, if_pos ⟨rfl, rfl⟩]
  cases settings.function? function.name function.arity <;> simp

/-- A call is bound as before unless it is one of the registered function that could not be
bound. -/
theorem bindCall_register (settings : Settings) (function : Function) (name : String)
    (position : Nat) (arguments : List Expr) :
    AgreesUnless (· = .unknownFunction function.name function.arity)
      (bindCall settings name position arguments)
      (bindCall (settings.register function) name position arguments) := by
  unfold bindCall
  rw [function?_register]
  cases hfound : settings.function? name arguments.length with
  | some found => exact .refl _
  | none =>
      by_cases hsame : function.name = name ∧ function.arity = arguments.length
      · rw [← hsame.1, ← hsame.2]
        exact .of_excused rfl
      · rw [if_neg hsame]
        exact .refl _

theorem parseWithin_register (settings : Settings) (function : Function) (room depth : Nat)
    (tokens : List Placed) :
    AgreesUnless (· = .unknownFunction function.name function.arity)
      (settings.parseWithin room depth tokens)
      ((settings.register function).parseWithin room depth tokens) := by
  induction room generalizing depth tokens with
  | zero => cases tokens <;> exact .refl _
  | succ room ih =>
      cases tokens with
      | nil => exact .refl _
      | cons first rest =>
          have hinner := ih (depth + 1)
          rw [parseWithin_cons, parseWithin_cons]
          apply (AgreesUnless.collapseCalls hinner (settings.bindCall_register function) _).bind
          intro short
          apply (AgreesUnless.collapseGroups hinner short).bind
          intro flat
          exact .refl _

theorem arrange_unregistered {tokens : List Placed} (hne : tokens ≠ []) :
    Blames (ParseError.Unregistered settings) (settings.arrange tokens) :=
  Blames.arrange hne (fun _ _ _ => nofun) (fun _ _ _ => nofun) (fun _ _ _ => nofun)

theorem parseWithin_unregistered {room depth : Nat} {tokens : List Placed} :
    Blames (ParseError.Unregistered settings) (settings.parseWithin room depth tokens) := by
  induction room generalizing depth tokens with
  | zero => cases tokens <;> exact .error nofun
  | succ room ih =>
      cases tokens with
      | nil => exact .error nofun
      | cons first rest =>
          have hcalls : CallFaults (ParseError.Unregistered settings)
              (settings.parseWithin room (depth + 1)) settings (first :: rest) := by
            refine ⟨fun _ _ _ => ih, fun _ _ _ => nofun, fun _ _ _ _ => nofun, ?_⟩
            rintro name position opening _ arity hnone _ _ ⟨⟩
            exact hnone
          have hgroups : ∀ short, GroupFaults (ParseError.Unregistered settings)
              (settings.parseWithin room (depth + 1)) short := fun short =>
            ⟨fun _ _ _ => ih, fun _ _ _ => nofun, fun _ _ _ => nofun, fun _ _ _ => nofun⟩
          rw [parseWithin_cons]
          apply (Blames.collapseCalls hcalls).bind
          intro short hshort
          apply (Blames.collapseGroups (hgroups short)).bind
          intro flat hflat
          exact arrange_unregistered (ne_nil_of_collapses (List.cons_ne_nil first rest)
            (collapseCalls_eq_ok_iff.1 hshort) (collapseGroups_eq_ok_iff.1 hflat))

/-- What the parser misses is not registered. -/
theorem function?_of_misses {tokens : List Placed}
    (h : Misses function (settings.parseTokens tokens)) :
    settings.function? function.name function.arity = none := by
  obtain ⟨position, herror⟩ := h
  exact parseWithin_unregistered _ herror _ _ rfl

end Settings

/-- Registering a function keeps every result, trees and errors alike, except where just this
function has been missed; then the result changes, as it is not missed again.  A function that
hides behind an earlier one of its name and arity changes nothing at all. -/
theorem parseTokens_register (settings : Settings) (function : Function) (tokens : List Placed) :
    (¬ Misses function (settings.parseTokens tokens) ↔
      (settings.register function).parseTokens tokens = settings.parseTokens tokens) ∧
    ¬ Misses function ((settings.register function).parseTokens tokens) ∧
    (settings.function? function.name function.arity ≠ none →
      (settings.register function).parseTokens tokens = settings.parseTokens tokens) := by
  have hnever : ¬ Misses function ((settings.register function).parseTokens tokens) :=
    fun hmisses => settings.function?_register_self function (Settings.function?_of_misses hmisses)
  have hkeeps : ¬ Misses function (settings.parseTokens tokens) →
      (settings.register function).parseTokens tokens = settings.parseTokens tokens := fun hnot =>
    ((misses_or_eq_of_agreesUnless
      (settings.parseWithin_register function _ 0 tokens)).resolve_left hnot).symm
  refine ⟨⟨hkeeps, fun heq hmisses => hnever (heq ▸ hmisses)⟩, hnever, fun hregistered => ?_⟩
  exact hkeeps fun hmisses => hregistered (Settings.function?_of_misses hmisses)

/-- The tokens of `abs(1)`. -/
def absOfOne : List Placed :=
  [⟨.identifier "abs", 0⟩, ⟨.openParen, 3⟩, ⟨.number 1, 4⟩, ⟨.closeParen, 5⟩]

theorem parseTokens_absOfOne :
    Settings.standard.parseTokens absOfOne = .ok (Builtin.abs.definition.call [.number 1]) := by
  have hscanned : ∀ placed ∈ absOfOne, placed.token.isScanned = true := by
    simp [absOfOne, Token.isScanned]
  have hone : Derives Settings.standard (.formula (.number 1)) [⟨.number 1, 4⟩] :=
    .of_value (.token rfl)
  have hcall : Derives Settings.standard (.value (Builtin.abs.definition.call [.number 1]))
      absOfOne := .call (.lastArgument hone) (Settings.function?_eq_some_iff.1 rfl)
  exact (Settings.parseTokens_of_scanned hscanned).2 ⟨.of_value hcall, by decide, by decide⟩

/-- A second function of the name `abs` does not take the call of the first. -/
theorem parseTokens_register_absOfOne :
    Settings.standard.function? "abs" 1 ≠ none ∧
      (Settings.standard.register ⟨"abs", 1, .builtin .floor⟩).parseTokens absOfOne =
        .ok (Builtin.abs.definition.call [.number 1]) := by
  have hregistered : Settings.standard.function? "abs" 1 = some Builtin.abs.definition := rfl
  have hne : Settings.standard.function? "abs" 1 ≠ none := by
    rw [hregistered]
    exact nofun
  obtain ⟨_, _, hkeeps⟩ :=
    parseTokens_register Settings.standard ⟨"abs", 1, .builtin .floor⟩ absOfOne
  exact ⟨hne, (hkeeps hne).trans parseTokens_absOfOne⟩

end Formula
