/-
Faults of parentheses.  What is cut out between parentheses that match is matched itself, so a
parenthesis is blamed only where the parentheses of the whole list do not match; and where they
do not, the list is rejected.
-/
import Formula.Proofs.Balance
import Formula.Proofs.Refusal

namespace Formula

/-- A parenthesis is not closed, or closes nothing. -/
def ParseFault.IsParenthesis : ParseFault → Prop
  | unclosedBlock | unclosedCall _ | unmatchedClose => True
  | _ => False

/-- A fault of another kind. -/
def NoParenthesis (error : ParseError) : Prop := ¬ error.fault.IsParenthesis

/-! Splitting. -/

theorem eq_zero_of_openAfter_eq_none {depth : Nat} {token : Token}
    (h : openAfter depth token = none) : depth = 0 := by
  obtain rfl := eq_of_openAfter_eq_none h
  cases depth with
  | zero => rfl
  | succ depth => cases h

section Splitting

variable {depth : Nat} {current tokens : List Placed}

theorem openBehind_gather {placed : Placed} {inner : Nat}
    (h : openBehind 0 current.reverse = some depth)
    (hnext : openAfter depth placed.token = some inner) :
    openBehind 0 (placed :: current).reverse = some inner := by
  rw [List.reverse_cons, openBehind_append, h, Option.bind_some, openBehind_cons, hnext]
  rfl

/-- A group that closes is balanced. -/
theorem balanced_of_splitGroup {inner after : List Placed}
    (hcurrent : openBehind 0 current.reverse = some depth)
    (h : splitGroup depth current tokens = some (inner, after)) : Balanced inner := by
  induction tokens generalizing depth current with
  | nil => cases h
  | cons placed rest ih =>
      rw [splitGroup_cons] at h
      cases hnext : openAfter depth placed.token with
      | none =>
          rw [hnext] at h
          cases h
          rwa [eq_zero_of_openAfter_eq_none hnext] at hcurrent
      | some next =>
          rw [hnext] at h
          exact ih (openBehind_gather hcurrent hnext) h

/-- A group that does not close stays open to the end. -/
theorem exists_openBehind_of_splitGroup (h : splitGroup depth current tokens = none) :
    ∃ inner, openBehind depth tokens = some inner := by
  induction tokens generalizing depth current with
  | nil => exact ⟨depth, rfl⟩
  | cons placed rest ih =>
      rw [splitGroup_cons] at h
      rw [openBehind_cons]
      cases hnext : openAfter depth placed.token with
      | none =>
          rw [hnext] at h
          cases h
      | some next =>
          rw [hnext] at h
          exact ih h

/-- Arguments that end are balanced, even those of a list that does not close. -/
theorem balanced_of_splitArguments (hcurrent : openBehind 0 current.reverse = some depth)
    {span : Span} (hspan : span ∈ (splitArguments depth current tokens).1) :
    Balanced span.tokens := by
  induction tokens generalizing depth current with
  | nil => cases hspan
  | cons placed rest ih =>
      rw [splitArguments_cons] at hspan
      cases hnext : openAfter depth placed.token with
      | none =>
          rw [hnext] at hspan
          obtain rfl := List.mem_singleton.1 hspan
          rwa [eq_zero_of_openAfter_eq_none hnext] at hcurrent
      | some next =>
          rw [hnext] at hspan
          dsimp only at hspan
          split at hspan
          · rename_i hends
            have hdepth : depth = 0 := eq_of_beq (Bool.and_eq_true_iff.1 hends).2
            rcases List.mem_cons.1 hspan with rfl | hspan
            · rwa [hdepth] at hcurrent
            · exact ih rfl hspan
          · exact ih (openBehind_gather hcurrent hnext) hspan

/-- A list of arguments that does not close stays open to the end. -/
theorem exists_openBehind_of_splitArguments (h : (splitArguments depth current tokens).2 = none) :
    ∃ inner, openBehind depth tokens = some inner := by
  induction tokens generalizing depth current with
  | nil => exact ⟨depth, rfl⟩
  | cons placed rest ih =>
      rw [splitArguments_cons] at h
      rw [openBehind_cons]
      cases hnext : openAfter depth placed.token with
      | none =>
          rw [hnext] at h
          cases h
      | some next =>
          rw [hnext] at h
          dsimp only at h
          split at h
          · rename_i hends
            have hcomma := Token.eq_comma_of_isComma (Bool.and_eq_true_iff.1 hends).1
            have hdepth : depth = 0 := eq_of_beq (Bool.and_eq_true_iff.1 hends).2
            rw [hcomma, hdepth] at hnext
            obtain rfl := Option.some.inj hnext
            exact ih h
          · exact ih h

end Splitting

theorem Joins.balanced {closing : Nat} {spans : List Span} {tokens : List Placed}
    (h : Joins closing spans tokens) (hspans : ∀ span ∈ spans, Balanced span.tokens) :
    Balanced tokens := by
  induction h with
  | last => exact hspans _ List.mem_cons_self
  | @more tokens rest stop spans h ih =>
      have hcomma : Balanced [⟨.comma, stop⟩] := .single nofun nofun
      have hrest := ih fun span hspan => hspans span (List.mem_cons_of_mem _ hspan)
      exact (hspans _ List.mem_cons_self).append (hcomma.append hrest)

/-- Parentheses that stay open to the end are not closed by it. -/
theorem openBehind_ne_zero {tokens : List Placed} {inner : Nat}
    (h : openBehind 0 tokens = some inner) (depth : Nat) :
    openBehind (depth + 1) tokens ≠ some 0 := by
  have hmore := openBehind_add h (depth + 1)
  rw [Nat.zero_add] at hmore
  rw [hmore]
  exact fun hzero => absurd (Option.some.inj hzero) (Nat.succ_ne_zero _)

/-- Behind tokens that are balanced everything is as in front of them. -/
theorem Balanced.openBehind_close {tokens : List Placed} (h : Balanced tokens)
    (depth closing : Nat) (after : List Placed) :
    openBehind (depth + 1) (tokens ++ ⟨.closeParen, closing⟩ :: after) =
      openBehind depth after := by
  rw [openBehind_append, h.openBehind_eq]
  rfl

/-- Values that are collapsed were balanced. -/
theorem Collapsed.openBehind_eq {settings : Settings} {opens : Bool} {full short : List Placed}
    (h : Collapsed settings opens full short) (depth : Nat) :
    openBehind depth short = openBehind depth full := by
  induction h generalizing depth with
  | nil => rfl
  | keep h ih =>
      rw [openBehind_cons, openBehind_cons]
      apply congrArg (Option.bind _)
      funext inner
      exact ih inner
  | @value placed tree tokens full short htree hname hvalue hends hstarts h ih =>
      have hplaced : Balanced [placed] := .seen Token.tree? rfl rfl htree
      have hkept := openBehind_append depth [placed] short
      rw [hplaced.openBehind_eq, Option.bind_some, List.singleton_append] at hkept
      rw [hkept, openBehind_append, hvalue.balanced.openBehind_eq, Option.bind_some]
      exact ih depth

/-! The passes. -/

section Passes

variable {parse : InnerParser} {settings : Settings} {tokens : List Placed}
  (hparse : ∀ inner, Balanced inner → Blames NoParenthesis (parse inner))

include hparse

theorem parseArguments_noParenthesis (rest : List Placed) :
    Blames NoParenthesis ((splitArguments 0 [] rest).1.mapM (parseArgument parse)) :=
  .parseArguments (fun _ _ => id) fun span hspan _ =>
    hparse span.tokens (balanced_of_splitArguments rfl hspan)

/-- Calls are closed wherever everything that is open is closed. -/
theorem collapseCalls_noParenthesis {depth : Nat} (h : openBehind depth tokens = some 0) :
    Blames NoParenthesis (collapseCalls parse settings tokens) := by
  induction tokens using calls_induction generalizing depth with
  | nil =>
      rw [collapseCalls_nil]
      exact .ok []
  | call name position opening rest spans after hsplit ih =>
      have harguments := parseArguments_noParenthesis hparse rest
      obtain ⟨list, closing, hrest, hjoins⟩ := exists_joins hsplit
      have hspans : ∀ span ∈ spans, Balanced span.tokens := by
        intro span hspan
        have hmem : span ∈ (splitArguments 0 [] rest).1 := by rwa [hsplit]
        exact balanced_of_splitArguments rfl hmem
      have hafter : openBehind depth after = some 0 := by
        rw [← (hjoins.balanced hspans).openBehind_close depth closing after, ← hrest]
        exact h
      rw [hsplit] at harguments
      rw [collapseCalls_call hsplit]
      apply harguments.bind
      intro arguments _
      have hcall : Blames NoParenthesis (bindCall settings name position arguments) :=
        .bindCall (fun _ _ => id) arguments
      apply hcall.bind
      intro call _
      apply (ih hafter).bind
      intro short _
      exact .ok _
  | unclosed name position opening rest spans hsplit =>
      have hnone : (splitArguments 0 [] rest).2 = none := by rw [hsplit]
      obtain ⟨inner, hinner⟩ := exists_openBehind_of_splitArguments hnone
      exact absurd h (openBehind_ne_zero hinner depth)
  | keep placed rest hseam ih =>
      obtain ⟨next, _, hrest⟩ := Option.bind_eq_some_iff.1 h
      rw [collapseCalls_keep hseam]
      apply (ih hrest).bind
      intro short _
      exact .ok _

theorem collapseGroups_noParenthesis (h : Balanced tokens) :
    Blames NoParenthesis (collapseGroups parse tokens) := by
  induction tokens using groups_induction with
  | nil =>
      rw [collapseGroups_nil]
      exact .ok []
  | empty opening rest after hsplit =>
      rw [collapseGroups_empty hsplit]
      exact .error id
  | group opening rest inner after hsplit hne ih =>
      have hinner : Balanced inner := balanced_of_splitGroup rfl hsplit
      obtain ⟨closing, hrest⟩ := exists_closing hsplit
      have hafter : Balanced after := by
        rw [Balanced, ← hinner.openBehind_close 0 closing after, ← hrest]
        exact h
      rw [collapseGroups_group hsplit hne]
      apply (hparse inner hinner).bind
      intro tree _
      apply (ih hafter).bind
      intro short _
      exact .ok _
  | unclosed opening rest hsplit =>
      obtain ⟨inner, hinner⟩ := exists_openBehind_of_splitGroup hsplit
      exact absurd h (openBehind_ne_zero hinner 0)
  | unmatched closing rest => cases h
  | keep placed rest hopen hclose ih =>
      have hrest : Balanced rest := by
        rw [Balanced, openBehind_cons, openAfter_of_ne hopen hclose] at h
        exact h
      rw [collapseGroups_keep hopen hclose]
      apply (ih hrest).bind
      intro short _
      exact .ok _

end Passes

namespace Settings

variable {settings : Settings}

theorem arrange_noParenthesis {tokens : List Placed} (hne : tokens ≠ []) :
    Blames NoParenthesis (settings.arrange tokens) :=
  .arrange hne (fun _ _ _ => id) (fun _ _ _ => id) (fun _ _ _ => id)

/-- Balanced tokens fail for other reasons than their parentheses, if they fail. -/
theorem parseWithin_noParenthesis {room depth : Nat} {tokens : List Placed}
    (h : Balanced tokens) : Blames NoParenthesis (settings.parseWithin room depth tokens) := by
  induction room generalizing depth tokens with
  | zero =>
      cases tokens with
      | nil => exact .error id
      | cons first rest => exact .error id
  | succ room ih =>
      cases tokens with
      | nil => exact .error id
      | cons first rest =>
          have hparsed : ∀ inner tree, settings.parseWithin room (depth + 1) inner = .ok tree →
              Derives settings (.formula tree) inner :=
            fun inner tree hok => (derives_of_parseWithin hok).1
          have hinner : ∀ inner, Balanced inner →
              Blames NoParenthesis (settings.parseWithin room (depth + 1) inner) :=
            fun inner hbalanced => ih hbalanced
          rw [parseWithin_cons]
          apply (collapseCalls_noParenthesis hinner h).bind
          intro short hshort
          have hcalls := collapseCalls_eq_ok_iff.1 hshort
          have hbalanced : Balanced short := ((hcalls.collapsed hparsed).openBehind_eq 0).trans h
          apply (collapseGroups_noParenthesis hinner hbalanced).bind
          intro flat hflat
          have hgroups := collapseGroups_eq_ok_iff.1 hflat
          exact arrange_noParenthesis (ne_nil_of_collapses (List.cons_ne_nil _ _) hcalls hgroups)

end Settings

/-- Parentheses are blamed only where they are not balanced, and tokens whose parentheses are
not balanced are rejected. -/
theorem parseTokens_parentheses (settings : Settings) (tokens : List Placed) :
    (∀ error, settings.parseTokens tokens = .error error → error.fault.IsParenthesis →
      ¬ Balanced tokens) ∧
    (¬ Balanced tokens → ∃ error, settings.parseTokens tokens = .error error) := by
  constructor
  · intro error herror hfault hbalanced
    exact Settings.parseWithin_noParenthesis hbalanced error herror hfault
  · intro hunbalanced
    cases hparse : settings.parseTokens tokens with
    | error error => exact ⟨error, rfl⟩
    | ok tree => exact absurd (Settings.derives_of_parseWithin hparse).1.balanced hunbalanced

/-- The tokens of `abs((1)`. -/
def unclosedAbs : List Placed :=
  [⟨.identifier "abs", 0⟩, ⟨.openParen, 3⟩, ⟨.openParen, 4⟩, ⟨.number 1, 5⟩, ⟨.closeParen, 6⟩]

theorem parseTokens_unclosedAbs :
    Settings.standard.parseTokens unclosedAbs = .error ⟨.unclosedCall "abs", 0⟩ := by
  have hsplit : splitArguments 0 [] [⟨.openParen, 4⟩, ⟨.number 1, 5⟩, ⟨.closeParen, 6⟩] =
      ([], none) := rfl
  rw [Settings.parseTokens, unclosedAbs, Settings.parseNested_of_le (Nat.zero_le _),
    collapseCalls_unclosed hsplit]
  rfl

/-- The parenthesis behind the number closes the inner one, so the call is blamed. -/
theorem parseTokens_parentheses_unclosedAbs :
    Settings.standard.parseTokens unclosedAbs = .error ⟨.unclosedCall "abs", 0⟩ ∧
      ¬ Balanced unclosedAbs ∧
      ∃ error, Settings.standard.parseTokens unclosedAbs = .error error := by
  obtain ⟨hblamed, hrejected⟩ := parseTokens_parentheses Settings.standard unclosedAbs
  have hunbalanced : ¬ Balanced unclosedAbs := hblamed _ parseTokens_unclosedAbs trivial
  exact ⟨parseTokens_unclosedAbs, hunbalanced, hrejected hunbalanced⟩

end Formula
