/-
What stands between parentheses.  Splitting finds the parenthesis that closes and the
commas of its own level; it goes over whatever the grammar reads in between, since
that opens and closes its own parentheses.
-/
import Formula.Proofs.Grammar
import Formula.Token.Delimited

namespace Formula

/-- How many parentheses are open behind a token, unless it closes one that has been opened
before. -/
def openAfter (depth : Nat) : Token → Option Nat
  | .openParen => some (depth + 1)
  | .closeParen =>
      match depth with
      | 0 => none
      | depth + 1 => some depth
  | _ => some depth

theorem eq_of_openAfter_eq_none {depth : Nat} {token : Token} (h : openAfter depth token = none) :
    token = .closeParen := by
  cases token <;> first | rfl | cases h

theorem openAfter_of_ne {token : Token} (hopen : token ≠ .openParen)
    (hclose : token ≠ .closeParen) (depth : Nat) : openAfter depth token = some depth := by
  cases token <;> first | rfl | exact absurd rfl hopen | exact absurd rfl hclose

theorem splitGroup_cons (depth : Nat) (current : List Placed) (placed : Placed)
    (rest : List Placed) :
    splitGroup depth current (placed :: rest) =
      match openAfter depth placed.token with
      | none => some (current.reverse, rest)
      | some inner => splitGroup inner (placed :: current) rest := by
  obtain ⟨token, position⟩ := placed
  cases token <;> cases depth <;> rfl

theorem splitArguments_cons (depth : Nat) (current : List Placed) (placed : Placed)
    (rest : List Placed) :
    splitArguments depth current (placed :: rest) =
      match openAfter depth placed.token with
      | none => ([⟨current.reverse, placed.position⟩], some rest)
      | some inner =>
          if placed.token.isComma && depth == 0 then
            (⟨current.reverse, placed.position⟩ :: (splitArguments 0 [] rest).1,
              (splitArguments 0 [] rest).2)
          else splitArguments inner (placed :: current) rest := by
  obtain ⟨token, position⟩ := placed
  cases token <;> cases depth <;> rfl

/-- The arguments of a list with the commas between them, up to the parenthesis at a
position. -/
inductive Joins (closing : Nat) : List Span → List Placed → Prop
  | last {tokens : List Placed} : Joins closing [⟨tokens, closing⟩] tokens
  | more {tokens rest : List Placed} {stop : Nat} {spans : List Span}
      (h : Joins closing spans rest) :
      Joins closing (⟨tokens, stop⟩ :: spans) (tokens ++ ⟨.comma, stop⟩ :: rest)

theorem Joins.segment {closing : Nat} {spans : List Span} {tokens : List Placed}
    (h : Joins closing spans tokens) {span : Span} (hspan : span ∈ spans) :
    span.tokens <:+: tokens := by
  induction h with
  | last =>
      obtain rfl := List.mem_singleton.1 hspan
      exact List.infix_refl _
  | more h ih =>
      rcases List.mem_cons.1 hspan with rfl | hspan
      · exact (List.prefix_append _ _).isInfix
      · exact (ih hspan).trans (segment_behind _ _ _)

/-- The tokens of a split list, with those in front that have been gathered. -/
theorem joins_of_splitArguments {depth : Nat} {current tokens after : List Placed}
    {spans : List Span} (h : splitArguments depth current tokens = (spans, some after)) :
    ∃ list closing, tokens = list ++ ⟨.closeParen, closing⟩ :: after ∧
      Joins closing spans (current.reverse ++ list) := by
  induction tokens generalizing depth current spans with
  | nil => simp [splitArguments] at h
  | cons placed rest ih =>
      obtain ⟨token, position⟩ := placed
      have hgathered : ∀ {depth : Nat},
          splitArguments depth (⟨token, position⟩ :: current) rest = (spans, some after) →
          ∃ list closing, ⟨token, position⟩ :: rest = list ++ ⟨.closeParen, closing⟩ :: after ∧
            Joins closing spans (current.reverse ++ list) := by
        intro depth hrest
        obtain ⟨list, closing, rfl, hjoins⟩ := ih hrest
        refine ⟨⟨token, position⟩ :: list, closing, rfl, ?_⟩
        simpa using hjoins
      unfold splitArguments at h
      split at h
      · rename_i htoken
        obtain rfl : token = .closeParen := htoken
        obtain ⟨rfl, rfl⟩ : [⟨current.reverse, position⟩] = spans ∧ rest = after := by
          simpa using h
        refine ⟨[], position, rfl, ?_⟩
        rw [List.append_nil]
        exact .last
      · exact hgathered h
      · exact hgathered h
      · rename_i htoken
        obtain rfl : token = .comma := htoken
        obtain ⟨rfl, hafter⟩ : ⟨current.reverse, position⟩ :: (splitArguments 0 [] rest).1 =
            spans ∧ (splitArguments 0 [] rest).2 = some after := by simpa using h
        obtain ⟨list, closing, rfl, hjoins⟩ := ih (Prod.ext rfl hafter)
        exact ⟨⟨.comma, position⟩ :: list, closing, rfl, .more hjoins⟩
      · exact hgathered h

theorem exists_joins {tokens after : List Placed} {spans : List Span}
    (h : splitArguments 0 [] tokens = (spans, some after)) :
    ∃ list closing, tokens = list ++ ⟨.closeParen, closing⟩ :: after ∧ Joins closing spans list :=
  joins_of_splitArguments h

theorem eq_of_splitGroup {depth : Nat} {current tokens inner after : List Placed}
    (h : splitGroup depth current tokens = some (inner, after)) :
    ∃ list closing, tokens = list ++ ⟨.closeParen, closing⟩ :: after ∧
      inner = current.reverse ++ list := by
  induction tokens generalizing depth current with
  | nil => simp [splitGroup] at h
  | cons placed rest ih =>
      obtain ⟨token, position⟩ := placed
      have hgathered : ∀ {depth : Nat},
          splitGroup depth (⟨token, position⟩ :: current) rest = some (inner, after) →
          ∃ list closing, ⟨token, position⟩ :: rest = list ++ ⟨.closeParen, closing⟩ :: after ∧
            inner = current.reverse ++ list := by
        intro depth hrest
        obtain ⟨list, closing, rfl, hinner⟩ := ih hrest
        exact ⟨⟨token, position⟩ :: list, closing, rfl, by simpa using hinner⟩
      unfold splitGroup at h
      split at h
      · rename_i htoken
        obtain rfl : token = .closeParen := htoken
        obtain ⟨rfl, rfl⟩ : current.reverse = inner ∧ rest = after := by simpa using h
        exact ⟨[], position, rfl, (List.append_nil _).symm⟩
      · exact hgathered h
      · exact hgathered h
      · exact hgathered h

theorem exists_closing {tokens inner after : List Placed}
    (h : splitGroup 0 [] tokens = some (inner, after)) :
    ∃ closing, tokens = inner ++ ⟨.closeParen, closing⟩ :: after := by
  obtain ⟨list, closing, htokens, hinner⟩ := eq_of_splitGroup h
  exact ⟨closing, hinner ▸ htokens⟩

/-- Where at least so many parentheses are open, splitting gathers the tokens and goes
on behind them. -/
structure Skipped (least : Nat) (tokens : List Placed) : Prop where
  arguments : ∀ (depth : Nat) (current rest : List Placed), least ≤ depth →
    splitArguments depth current (tokens ++ rest) =
      splitArguments depth (tokens.reverse ++ current) rest
  group : ∀ (depth : Nat) (current rest : List Placed),
    splitGroup depth current (tokens ++ rest) = splitGroup depth (tokens.reverse ++ current) rest

namespace Skipped

variable {least : Nat} {tokens rest : List Placed}

theorem nil : Skipped least [] where
  arguments _ _ _ _ := rfl
  group _ _ _ := rfl

theorem append (htokens : Skipped least tokens) (hrest : Skipped least rest) :
    Skipped least (tokens ++ rest) where
  arguments depth current after hle := by
    rw [List.append_assoc, htokens.arguments depth _ _ hle, hrest.arguments depth _ _ hle,
      List.reverse_append, List.append_assoc]
  group depth current after := by
    rw [List.append_assoc, htokens.group, hrest.group, List.reverse_append, List.append_assoc]

theorem mono {more : Nat} (h : Skipped least tokens) (hle : least ≤ more) :
    Skipped more tokens where
  arguments depth current rest hdepth := h.arguments depth current rest (Nat.le_trans hle hdepth)
  group := h.group

theorem value {placed : Placed} {tree : Expr} (h : placed.token.tree? = some tree) :
    Skipped least [placed] := by
  obtain ⟨token, position⟩ := placed
  constructor
  · intro depth current rest _
    cases token <;> first | rfl | cases h
  · intro depth current rest
    cases token <;> first | rfl | cases h

theorem operator {placed : Placed} {op : BinaryOperator} (h : placed.token.binary? = some op) :
    Skipped least [placed] := by
  obtain ⟨token, position⟩ := placed
  constructor
  · intro depth current rest _
    cases token <;> first | rfl | cases h
  · intro depth current rest
    cases token <;> first | rfl | cases h

theorem sign {placed : Placed} {op : UnaryOperator} (h : placed.token.unary? = some op) :
    Skipped least [placed] := by
  obtain ⟨other, hother⟩ := Option.isSome_iff_exists.1 (Token.isOperator_of_unary? h)
  exact operator hother

/-- Commas that are not of the own level are skipped. -/
theorem comma (position : Nat) : Skipped 1 [⟨.comma, position⟩] where
  arguments depth current rest hle := by
    cases depth with
    | zero => exact absurd hle (Nat.not_succ_le_zero 0)
    | succ depth => rfl
  group depth current rest := rfl

theorem parentheses (h : Skipped 1 tokens) (opening closing : Nat) :
    Skipped 0 (⟨.openParen, opening⟩ :: (tokens ++ [⟨.closeParen, closing⟩])) where
  arguments depth current rest _ := by
    calc splitArguments depth current
          (⟨.openParen, opening⟩ :: (tokens ++ [⟨.closeParen, closing⟩]) ++ rest)
        = splitArguments (depth + 1) (⟨.openParen, opening⟩ :: current)
            (tokens ++ ⟨.closeParen, closing⟩ :: rest) := by
          rw [List.cons_append, List.append_assoc]
          cases depth <;> rfl
      _ = splitArguments (depth + 1) (tokens.reverse ++ ⟨.openParen, opening⟩ :: current)
            (⟨.closeParen, closing⟩ :: rest) :=
          h.arguments (depth + 1) _ _ (Nat.succ_pos depth)
      _ = _ := by
          simp [splitArguments]
  group depth current rest := by
    calc splitGroup depth current
          (⟨.openParen, opening⟩ :: (tokens ++ [⟨.closeParen, closing⟩]) ++ rest)
        = splitGroup (depth + 1) (⟨.openParen, opening⟩ :: current)
            (tokens ++ ⟨.closeParen, closing⟩ :: rest) := by
          rw [List.cons_append, List.append_assoc]
          cases depth <;> rfl
      _ = splitGroup (depth + 1) (tokens.reverse ++ ⟨.openParen, opening⟩ :: current)
            (⟨.closeParen, closing⟩ :: rest) := h.group (depth + 1) _ _
      _ = _ := by
          simp [splitGroup]

end Skipped

/-- How many parentheses must be open for a phrase to be skipped: the commas between
arguments are of the level of the call. -/
def Phrase.least : Phrase → Nat
  | arguments _ => 1
  | _ => 0

theorem Derives.skipped {settings : Settings} {phrase : Phrase} {tokens : List Placed}
    (h : Derives settings phrase tokens) : Skipped phrase.least tokens := by
  induction h with
  | token htree => exact .value htree
  | @call name position opening closing _ _ _ harguments hfunction ih =>
      have hname : Skipped 0 [⟨.identifier name, position⟩] := .value rfl
      exact hname.append (ih.parentheses opening closing)
  | @group opening closing _ _ hinner ih =>
      exact (ih.mono (Nat.zero_le 1)).parentheses opening closing
  | bare hvalue ih => exact ih
  | sign hop hoperand ih => exact (Skipped.sign hop).append ih
  | first hoperand ih => exact ih
  | operator hchain hop hoperand ihchain ihoperand =>
      exact ihchain.append ((Skipped.operator hop).append ihoperand)
  | juxtaposed himplicit hchain hvalue hseam ihchain ihvalue => exact ihchain.append ihvalue
  | formula hchain hlayered ih => exact ih
  | lastArgument hformula ih => exact ih.mono (Nat.zero_le 1)
  | @argument tree trees position tokens rest hformula hrest ihformula ihrest =>
      exact (ihformula.mono (Nat.zero_le 1)).append ((Skipped.comma position).append ihrest)

theorem splitGroup_close {tokens : List Placed} {least : Nat} (h : Skipped least tokens)
    (closing : Nat) (after : List Placed) :
    splitGroup 0 [] (tokens ++ ⟨.closeParen, closing⟩ :: after) = some (tokens, after) := by
  rw [h.group, List.append_nil]
  simp [splitGroup]

theorem splitArguments_close {closing : Nat} {spans : List Span} {tokens : List Placed}
    (h : Joins closing spans tokens) (hspans : ∀ span ∈ spans, Skipped 0 span.tokens)
    (after : List Placed) :
    splitArguments 0 [] (tokens ++ ⟨.closeParen, closing⟩ :: after) = (spans, some after) := by
  induction h with
  | @last tokens =>
      have hskipped : Skipped 0 tokens := hspans _ List.mem_cons_self
      rw [hskipped.arguments 0 _ _ (Nat.le_refl 0), List.append_nil]
      simp [splitArguments]
  | @more tokens rest stop spans h ih =>
      have hskipped : Skipped 0 tokens := hspans _ List.mem_cons_self
      have hrest := ih fun span hspan => hspans span (List.mem_cons_of_mem _ hspan)
      rw [List.append_assoc, hskipped.arguments 0 _ _ (Nat.le_refl 0), List.append_nil,
        List.cons_append]
      simp [splitArguments, hrest]

end Formula
