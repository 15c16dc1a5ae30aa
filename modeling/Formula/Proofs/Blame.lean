/-
Where faults come from.  A pass fails where what stands between its parentheses fails, or
by a fault of its own that a token of the list accounts for.
-/
import Formula.Precedence.Claims
import Formula.Proofs.Collapse.Calls
import Formula.Proofs.Collapse.Groups
import Formula.Proofs.Precedence.Row

namespace Formula

/-- Whatever goes wrong is such a fault. -/
def Blames {α : Type} (fits : ParseError → Prop) (outcome : Except ParseError α) : Prop :=
  ∀ error, outcome = .error error → fits error

namespace Blames

variable {α β : Type} {fits : ParseError → Prop}

theorem ok (value : α) : Blames fits (.ok value) := by
  intro error herror
  cases herror

theorem error {error : ParseError} (h : fits error) :
    Blames fits (.error error : Except ParseError α) := by
  intro other hother
  cases hother
  exact h

theorem bind {first : Except ParseError α} {next : α → Except ParseError β}
    (h : Blames fits first) (hnext : ∀ value, first = .ok value → Blames fits (next value)) :
    Blames fits (first >>= next) := by
  cases first with
  | error error => exact .error (h error rfl)
  | ok value => exact hnext value rfl

theorem of_bind {first : Except ParseError α} {next : α → Except ParseError β}
    (h : Blames fits (first >>= next)) :
    Blames fits first ∧ ∀ value, first = .ok value → Blames fits (next value) := by
  cases first with
  | error error => exact ⟨.error (h error rfl), nofun⟩
  | ok value =>
      refine ⟨.ok value, fun other hother => ?_⟩
      obtain rfl := Except.ok.inj hother
      exact h

theorem imp {other : ParseError → Prop} {outcome : Except ParseError α} (h : Blames fits outcome)
    (himp : ∀ error, fits error → other error) : Blames other outcome :=
  fun error herror => himp error (h error herror)

theorem mapM {step : β → Except ParseError α} {inputs : List β}
    (hstep : ∀ input ∈ inputs, Blames fits (step input)) : Blames fits (inputs.mapM step) := by
  induction inputs with
  | nil => exact .ok []
  | cons input inputs ih =>
      rw [List.mapM_cons]
      apply (hstep input List.mem_cons_self).bind
      intro result _
      apply (ih fun other hother => hstep other (List.mem_cons_of_mem _ hother)).bind
      intro results _
      exact .ok _

end Blames

/-- What is cut out of the tokens in front of a list holds a segment of all of them, and
stops at a comma or at a parenthesis. -/
theorem span_of_splitArguments {depth : Nat} {current tokens : List Placed} {span : Span}
    (hspan : span ∈ (splitArguments depth current tokens).1) :
    span.tokens <:+: current.reverse ++ tokens ∧
      ∃ placed ∈ tokens, (placed.token = .comma ∨ placed.token = .closeParen) ∧
        placed.position = span.stop := by
  induction tokens generalizing depth current with
  | nil => cases hspan
  | cons placed rest ih =>
      have hfront : current.reverse <:+: current.reverse ++ placed :: rest :=
        (List.prefix_append _ _).isInfix
      rw [splitArguments_cons] at hspan
      cases hdepth : openAfter depth placed.token with
      | none =>
          rw [hdepth] at hspan
          obtain rfl := List.mem_singleton.1 hspan
          exact ⟨hfront, placed, List.mem_cons_self, .inr (eq_of_openAfter_eq_none hdepth), rfl⟩
      | some inner =>
          rw [hdepth] at hspan
          dsimp only at hspan
          split at hspan
          · rename_i hstops
            have hcomma := Token.eq_comma_of_isComma (Bool.and_eq_true_iff.1 hstops).1
            rcases List.mem_cons.1 hspan with rfl | hspan
            · exact ⟨hfront, placed, List.mem_cons_self, .inl hcomma, rfl⟩
            · obtain ⟨hsegment, stop, hstop, hends⟩ := ih hspan
              exact ⟨hsegment.trans (segment_behind current.reverse placed rest), stop,
                List.mem_cons_of_mem _ hstop, hends⟩
          · obtain ⟨hsegment, stop, hstop, hends⟩ := ih hspan
            rw [List.reverse_cons, List.append_assoc, List.singleton_append] at hsegment
            exact ⟨hsegment, stop, List.mem_cons_of_mem _ hstop, hends⟩

/-- What stands between parentheses among the tokens is shorter than the tokens. -/
def Inside (inner tokens : List Placed) : Prop := inner <:+: tokens ∧ inner.length < tokens.length

theorem Inside.widen {inner segment tokens : List Placed} (h : Inside inner segment)
    (hsegment : segment <:+: tokens) : Inside inner tokens :=
  ⟨h.1.trans hsegment, Nat.lt_of_lt_of_le h.2 hsegment.length_le⟩

theorem Inside.cons {inner tokens : List Placed} (h : inner <:+: tokens) (placed : Placed) :
    Inside inner (placed :: tokens) :=
  ⟨h.trans (List.suffix_cons _ _).isInfix, Nat.lt_succ_of_le h.length_le⟩

/-- The faults of collapsing calls: those inside of a list of arguments, at the end of an
argument that is empty, and at a name in front of a parenthesis. -/
structure CallFaults (fits : ParseError → Prop) (parse : InnerParser) (settings : Settings)
    (tokens : List Placed) : Prop where
  inside : ∀ inner, inner ≠ [] → Inside inner tokens → Blames fits (parse inner)
  empty : ∀ placed ∈ tokens, placed.token = .comma ∨ placed.token = .closeParen →
    fits ⟨.emptyArgument, placed.position⟩
  unclosed : ∀ name position opening,
    [⟨.identifier name, position⟩, ⟨.openParen, opening⟩] <:+: tokens →
    fits ⟨.unclosedCall name, position⟩
  unknown : ∀ name position opening,
    [⟨.identifier name, position⟩, ⟨.openParen, opening⟩] <:+: tokens →
    ∀ arity, settings.function? name arity = none → fits ⟨.unknownFunction name arity, position⟩

/-- The faults of collapsing groups: those inside of a group, and at a parenthesis. -/
structure GroupFaults (fits : ParseError → Prop) (parse : InnerParser) (tokens : List Placed) :
    Prop where
  inside : ∀ inner, inner ≠ [] → Inside inner tokens → Blames fits (parse inner)
  empty : ∀ placed ∈ tokens, placed.token = .openParen → fits ⟨.emptyBlock, placed.position⟩
  unclosed : ∀ placed ∈ tokens, placed.token = .openParen → fits ⟨.unclosedBlock, placed.position⟩
  unmatched : ∀ placed ∈ tokens, placed.token = .closeParen →
    fits ⟨.unmatchedClose, placed.position⟩

section Passes

variable {fits : ParseError → Prop} {parse : InnerParser} {settings : Settings}
  {tokens part : List Placed}

theorem CallFaults.segment (h : CallFaults fits parse settings tokens)
    (hpart : part <:+: tokens) : CallFaults fits parse settings part where
  inside inner hne hinner := h.inside inner hne (hinner.widen hpart)
  empty placed hplaced := h.empty placed (hpart.subset hplaced)
  unclosed name position opening hpair := h.unclosed name position opening (hpair.trans hpart)
  unknown name position opening hpair := h.unknown name position opening (hpair.trans hpart)

theorem GroupFaults.segment (h : GroupFaults fits parse tokens)
    (hpart : part <:+: tokens) : GroupFaults fits parse part where
  inside inner hne hinner := h.inside inner hne (hinner.widen hpart)
  empty placed hplaced := h.empty placed (hpart.subset hplaced)
  unclosed placed hplaced := h.unclosed placed (hpart.subset hplaced)
  unmatched placed hplaced := h.unmatched placed (hpart.subset hplaced)

theorem Blames.parseArguments {spans : List Span}
    (hempty : ∀ span ∈ spans, fits ⟨.emptyArgument, span.stop⟩)
    (hinside : ∀ span ∈ spans, span.tokens ≠ [] → Blames fits (parse span.tokens)) :
    Blames fits (spans.mapM (parseArgument parse)) := by
  apply Blames.mapM
  intro span hspan
  unfold parseArgument
  split
  · exact .error (hempty span hspan)
  · rename_i hne
    exact hinside span hspan (by simpa using hne)

theorem Blames.bindCall {name : String} {position : Nat}
    (hunknown : ∀ arity, settings.function? name arity = none →
      fits ⟨.unknownFunction name arity, position⟩) (arguments : List Expr) :
    Blames fits (Formula.bindCall settings name position arguments) := by
  unfold Formula.bindCall
  cases hfunction : settings.function? name arguments.length with
  | none => exact .error (hunknown arguments.length hfunction)
  | some function => exact .ok _

theorem CallFaults.arguments {name : Placed} {opening : Nat} {rest : List Placed}
    (h : CallFaults fits parse settings (name :: ⟨.openParen, opening⟩ :: rest)) :
    Blames fits ((splitArguments 0 [] rest).1.mapM (parseArgument parse)) := by
  apply Blames.parseArguments
  · intro span hspan
    obtain ⟨_, stop, hstop, hends, hposition⟩ := span_of_splitArguments hspan
    have hmem := List.mem_cons_of_mem name (List.mem_cons_of_mem ⟨.openParen, opening⟩ hstop)
    rw [← hposition]
    exact h.empty stop hmem hends
  · intro span hspan hne
    obtain ⟨hsegment, _⟩ := span_of_splitArguments hspan
    have hinside : Inside span.tokens (⟨.openParen, opening⟩ :: rest) := .cons hsegment _
    exact h.inside span.tokens hne (hinside.widen (List.suffix_cons _ _).isInfix)

theorem Blames.collapseCalls (h : CallFaults fits parse settings tokens) :
    Blames fits (Formula.collapseCalls parse settings tokens) := by
  induction tokens using calls_induction with
  | nil =>
      rw [collapseCalls_nil]
      exact .ok []
  | call name position opening rest spans after hsplit ih =>
      have harguments := h.arguments
      have hpair : [(⟨.identifier name, position⟩ : Placed), ⟨.openParen, opening⟩] <:+:
          ⟨.identifier name, position⟩ :: ⟨.openParen, opening⟩ :: rest :=
        (List.prefix_append [_, _] rest).isInfix
      obtain ⟨list, closing, hrest, _⟩ := exists_joins hsplit
      have hafter : after <:+: ⟨.identifier name, position⟩ :: ⟨.openParen, opening⟩ :: rest := by
        rw [hrest]
        exact segment_behind (_ :: _ :: list) _ after
      rw [hsplit] at harguments
      rw [collapseCalls_call hsplit]
      apply harguments.bind
      intro arguments _
      apply (Blames.bindCall (h.unknown name position opening hpair) arguments).bind
      intro call _
      apply (ih (h.segment hafter)).bind
      intro short _
      exact .ok _
  | unclosed name position opening rest spans hsplit =>
      have harguments := h.arguments
      rw [hsplit] at harguments
      rw [collapseCalls_unclosed hsplit]
      apply harguments.bind
      intro arguments _
      exact .error (h.unclosed name position opening (List.prefix_append [_, _] rest).isInfix)
  | keep placed rest hseam ih =>
      rw [collapseCalls_keep hseam]
      apply (ih (h.segment (List.suffix_cons _ _).isInfix)).bind
      intro short _
      exact .ok _

theorem Blames.collapseGroups (h : GroupFaults fits parse tokens) :
    Blames fits (Formula.collapseGroups parse tokens) := by
  induction tokens using groups_induction with
  | nil =>
      rw [collapseGroups_nil]
      exact .ok []
  | empty opening rest after hsplit =>
      rw [collapseGroups_empty hsplit]
      exact .error (h.empty _ List.mem_cons_self rfl)
  | group opening rest inner after hsplit hne ih =>
      obtain ⟨closing, hrest⟩ := exists_closing hsplit
      have hinside : Inside inner (⟨.openParen, opening⟩ :: rest) := by
        rw [hrest]
        exact .cons (List.prefix_append _ _).isInfix _
      have hafter : after <:+: ⟨.openParen, opening⟩ :: rest := by
        rw [hrest]
        exact segment_behind (_ :: inner) _ after
      rw [collapseGroups_group hsplit hne]
      apply (h.inside inner hne hinside).bind
      intro tree _
      apply (ih (h.segment hafter)).bind
      intro short _
      exact .ok _
  | unclosed opening rest hsplit =>
      rw [collapseGroups_unclosed hsplit]
      exact .error (h.unclosed _ List.mem_cons_self rfl)
  | unmatched closing rest =>
      rw [collapseGroups_unmatched]
      exact .error (h.unmatched _ List.mem_cons_self rfl)
  | keep placed rest hopen hclose ih =>
      rw [collapseGroups_keep hopen hclose]
      apply (ih (h.segment (List.suffix_cons _ _).isInfix)).bind
      intro short _
      exact .ok _

end Passes

/-- Why a token that stands for no value is refused where operators claim their operands: it
is no operator, it is the last token, or it follows no value. -/
def Lacking (before : List Placed) (placed : Placed) (rest : List Placed) : Prop :=
  placed.token.isOperator = false ∨ rest = [] ∨ before.getLast?.any Placed.isValue = false

/-- The faults of claiming operands: a comma, and a token that lacks something. -/
structure ClaimFaults (fits : ParseError → Prop) (tokens : List Placed) : Prop where
  comma : ∀ placed ∈ tokens, placed.token = .comma → fits ⟨.unexpectedComma, placed.position⟩
  lacking : ∀ before placed rest, tokens = before ++ placed :: rest → placed.isValue = false →
    placed.token ≠ .comma → Lacking before placed rest → fits ⟨.noRootOperation, placed.position⟩

theorem Claims.accept_blames {fits : ParseError → Prop} {tokens before rest : List Placed}
    {placed : Placed} (h : ClaimFaults fits tokens) (htokens : tokens = before ++ placed :: rest)
    (claims : Claims) (index : Nat) :
    Blames fits
      (claims.accept index (before.getLast?.any Placed.isValue) rest.isEmpty placed) := by
  have hmem : placed ∈ tokens := by simp [htokens]
  have hlacking : placed.isValue = false → placed.token ≠ .comma →
      (!placed.token.isOperator || rest.isEmpty ||
        ((placed.token.unary?.isNone || before.getLast?.any Placed.isValue) &&
          !before.getLast?.any Placed.isValue)) = true →
      fits ⟨.noRootOperation, placed.position⟩ := by
    intro hvalue hcomma hrefused
    apply h.lacking before placed rest htokens hvalue hcomma
    unfold Lacking
    simp only [Bool.or_eq_true, Bool.and_eq_true, Bool.not_eq_true', List.isEmpty_iff] at hrefused
    rcases hrefused with (hoperator | hlast) | ⟨_, hafter⟩
    · exact .inl hoperator
    · exact .inr (.inl hlast)
    · exact .inr (.inr hafter)
  obtain ⟨token, position⟩ := placed
  cases token with
  | number | identifier | call | group => exact .ok claims
  | comma => exact .error (h.comma _ hmem rfl)
  | _ =>
      unfold accept
      dsimp only at hlacking ⊢
      split
      · rename_i hrefused
        exact .error (hlacking rfl nofun hrefused)
      · exact .ok _

/-- Claiming operands has no other faults. -/
theorem Blames.acceptAll {fits : ParseError → Prop} {tokens before rest : List Placed}
    (h : ClaimFaults fits tokens) (htokens : tokens = before ++ rest) (claims : Claims)
    (index : Nat) :
    Blames fits (claims.acceptAll index (before.getLast?.any Placed.isValue) rest) := by
  induction rest generalizing before claims index with
  | nil => exact .ok claims
  | cons placed rest ih =>
      have hmore : tokens = (before ++ [placed]) ++ rest := by simp [htokens]
      have hlast : (before ++ [placed]).getLast?.any Placed.isValue = placed.isValue := by simp
      apply (claims.accept_blames h htokens index).bind
      intro next _
      rw [← hlast]
      exact ih hmore next (index + 1)

/-- Resolving fails where claiming does, or at a token that is left over. -/
theorem Blames.resolve {fits : ParseError → Prop} {tokens : List Placed}
    (h : ClaimFaults fits tokens)
    (hroot : ∀ claims index, Claims.acceptAll {} 0 false tokens = .ok claims →
      (∀ chain, ¬ Row chain tokens) → (tokens ≠ [] → index < tokens.length) →
      fits ⟨.noRootOperation, positionAt tokens index⟩) :
    Blames fits (Formula.resolve tokens) := by
  by_cases hrow : ∃ chain, Row chain tokens
  · obtain ⟨chain, hchain⟩ := hrow
    obtain ⟨resolution, _, hok, _⟩ := hchain.resolve
    rw [hok]
    exact .ok resolution
  · have hno : ∀ chain, ¬ Row chain tokens := fun chain hchain => hrow ⟨chain, hchain⟩
    apply (Blames.acceptAll h (List.nil_append tokens).symm {} 0).bind
    intro claims hclaims
    split
    · exact .ok _
    · rename_i extra rest hunclaimed
      have hextra : extra ∈ claims.unclaimed tokens.length := by simp [hunclaimed]
      exact .error (hroot claims extra hclaims hno fun _ => (Claims.mem_unclaimed.1 hextra).1)
    · exact .error (hroot claims 0 hclaims hno fun hne => List.length_pos_iff.2 hne)

end Formula
