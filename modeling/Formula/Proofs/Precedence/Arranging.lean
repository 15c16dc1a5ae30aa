/-
Arranging tokens without parentheses.  The stars that are put between neighbouring
values are what the grammar reads into a product without a star, so what is arranged
are the formulas of the grammar, under the limit of height.
-/
import Formula.Expr.Parser
import Formula.Proofs.Grammar
import Formula.Proofs.Precedence.Assembling

namespace Formula

/-- The star that goes behind a token, by the token that follows. -/
def starBetween (left : Placed) : Option Placed → List Placed
  | some right => if left.isValue && right.isValue then [⟨.star, right.position⟩] else []
  | none => []

theorem starBetween_of_not_value {left : Placed} (h : left.isValue = false)
    (next : Option Placed) : starBetween left next = [] := by
  cases next <;> simp [starBetween, h]

theorem starBetween_operator (left : Placed) {right : Placed} (h : right.isValue = false) :
    starBetween left (some right) = [] := by
  simp [starBetween, h]

theorem starBetween_values {left right : Placed} (hleft : left.isValue = true)
    (hright : right.isValue = true) :
    starBetween left (some right) = [⟨.star, right.position⟩] := by
  simp [starBetween, hleft, hright]

theorem starBetween_cases (left : Placed) (next : Option Placed) :
    starBetween left next = [] ∨ ∃ right, next = some right ∧ left.isValue = true ∧
      right.isValue = true ∧ starBetween left next = [⟨.star, right.position⟩] := by
  cases next with
  | none => exact .inl rfl
  | some right =>
      by_cases h : left.isValue = true ∧ right.isValue = true
      · exact .inr ⟨right, rfl, h.1, h.2, starBetween_values h.1 h.2⟩
      · exact .inl (if_neg (by simpa using h))

theorem starBetween_head?_append (first : Placed) (left : List Placed) {op : Placed}
    (h : op.isValue = false) (right : List Placed) :
    starBetween first (left ++ op :: right).head? = starBetween first left.head? := by
  cases left with
  | nil => exact starBetween_operator first h
  | cons next left => rfl

theorem head?_append_append (left : List Placed) (last : Placed) (rest : List Placed) :
    ((left ++ [last]) ++ rest).head? = (left ++ [last]).head? := by
  cases left <;> rfl

theorem insertStars_cons (first : Placed) (rest : List Placed) :
    insertStars (first :: rest) = first :: (starBetween first rest.head? ++ insertStars rest) := by
  cases rest with
  | nil => rfl
  | cons next rest =>
      rw [insertStars, List.head?_cons, starBetween]
      split <;> rfl

/-- No star goes next to an operator. -/
theorem insertStars_append_operator (left : List Placed) {op : Placed} (h : op.isValue = false)
    (right : List Placed) :
    insertStars (left ++ op :: right) = insertStars left ++ op :: insertStars right := by
  induction left with
  | nil =>
      rw [List.nil_append, insertStars_cons, starBetween_of_not_value h]
      rfl
  | cons first left ih =>
      rw [List.cons_append, insertStars_cons, starBetween_head?_append first left h, ih,
        insertStars_cons first, List.cons_append, List.append_assoc]

theorem insertStars_append_values (left : List Placed) {last next : Placed}
    (hlast : last.isValue = true) (hnext : next.isValue = true) (rest : List Placed) :
    insertStars ((left ++ [last]) ++ next :: rest) =
      insertStars (left ++ [last]) ++ ⟨.star, next.position⟩ :: insertStars (next :: rest) := by
  induction left with
  | nil =>
      change insertStars (last :: next :: rest) = last :: ⟨.star, next.position⟩ :: _
      rw [insertStars_cons, List.head?_cons, starBetween_values hlast hnext]
      rfl
  | cons first left ih =>
      rw [List.cons_append, List.cons_append, insertStars_cons, head?_append_append, ih,
        insertStars_cons first, List.cons_append, List.append_assoc]

/-- Where an operator among starred tokens comes from: it has been there before, or is
a star between two values. -/
def Splits (tokens left : List Placed) (op : Placed) (right : List Placed) : Prop :=
  (∃ before after, tokens = before ++ op :: after ∧ insertStars before = left ∧
      insertStars after = right) ∨
    ∃ before last next after, tokens = (before ++ [last]) ++ next :: after ∧
      last.isValue = true ∧ next.isValue = true ∧ op.token = .star ∧
      insertStars (before ++ [last]) = left ∧ insertStars (next :: after) = right

theorem Splits.cons {rest left right : List Placed} {op : Placed} (hop : op.isValue = false)
    (h : Splits rest left op right) (first : Placed) :
    Splits (first :: rest) (first :: (starBetween first rest.head? ++ left)) op right := by
  rcases h with ⟨before, after, rfl, rfl, hafter⟩ |
    ⟨before, last, next, after, rfl, hlast, hnext, hstar, rfl, hafter⟩
  · refine .inl ⟨first :: before, after, rfl, ?_, hafter⟩
    rw [insertStars_cons, starBetween_head?_append first before hop]
  · refine .inr ⟨first :: before, last, next, after, rfl, hlast, hnext, hstar, ?_, hafter⟩
    rw [List.cons_append, insertStars_cons, head?_append_append]

theorem splits_of_insertStars {tokens left right : List Placed} {op : Placed}
    (hop : op.isValue = false) (h : insertStars tokens = left ++ op :: right) :
    Splits tokens left op right := by
  induction tokens generalizing left with
  | nil => cases left <;> cases h
  | cons first rest ih =>
      rw [insertStars_cons] at h
      cases left with
      | nil =>
          obtain ⟨rfl, hrest⟩ := List.cons.inj h
          rw [starBetween_of_not_value hop] at hrest
          exact .inl ⟨[], rest, rfl, rfl, hrest⟩
      | cons head left =>
          obtain ⟨rfl, hrest⟩ := List.cons.inj h
          rcases starBetween_cases first rest.head? with hnone | ⟨next, hhead, hfirst, hnext, hstar⟩
          · rw [hnone] at hrest
            have hsplits := (ih hrest).cons hop first
            rwa [hnone] at hsplits
          · rw [hstar] at hrest
            cases left with
            | nil =>
                -- the operator is the star itself
                obtain ⟨after, rfl⟩ : ∃ after, rest = next :: after :=
                  List.head?_eq_some_iff.1 hhead
                obtain ⟨rfl, hafter⟩ := List.cons.inj hrest
                exact .inr ⟨[], first, next, after, rfl, hfirst, hnext, rfl, rfl, hafter⟩
            | cons star left =>
                obtain ⟨rfl, hmore⟩ := List.cons.inj hrest
                have hsplits := (ih hmore).cons hop first
                rwa [hstar] at hsplits

theorem getLast?_insertStars (tokens : List Placed) :
    (insertStars tokens).getLast? = tokens.getLast? := by
  induction tokens with
  | nil => rfl
  | cons first rest ih =>
      cases rest with
      | nil => rfl
      | cons next rest =>
          obtain ⟨tail, htail⟩ : ∃ tail, insertStars (next :: rest) = next :: tail :=
            ⟨_, insertStars_cons next rest⟩
          rw [insertStars_cons, List.getLast?_cons_cons, ← ih, htail]
          rcases starBetween_cases first (next :: rest).head? with hnone | ⟨right, _, _, _, hstar⟩
          · rw [hnone]
            rfl
          · rw [hstar]
            rfl

theorem Signed.insertStars_eq {tree : Expr} {tokens : List Placed} (h : Signed tree tokens) :
    insertStars tokens = tokens := by
  induction h with
  | value htree => rfl
  | sign hop hoperand ih =>
      rw [insertStars_cons, starBetween_of_not_value (Token.isValue_of_unary? hop), ih]
      rfl

/-- No star has been put into a signed value. -/
theorem Signed.eq_of_insertStars {tree : Expr} {tokens starred : List Placed}
    (h : Signed tree starred) (hstars : insertStars tokens = starred) : tokens = starred := by
  induction h generalizing tokens with
  | @value placed tree htree =>
      cases tokens with
      | nil => cases hstars
      | cons first rest =>
          rw [insertStars_cons] at hstars
          obtain ⟨rfl, hrest⟩ := List.cons.inj hstars
          cases rest with
          | nil => rfl
          | cons next rest =>
              rw [insertStars_cons] at hrest
              simp at hrest
  | @sign placed op tree operand hop hoperand ih =>
      cases tokens with
      | nil => cases hstars
      | cons first rest =>
          rw [insertStars_cons] at hstars
          obtain ⟨rfl, hrest⟩ := List.cons.inj hstars
          rw [starBetween_of_not_value (Token.isValue_of_unary? hop)] at hrest
          rw [ih hrest]

theorem Signed.getLast?_isValue {tree : Expr} {tokens : List Placed} (h : Signed tree tokens) :
    tokens.getLast?.any Placed.isValue = true := by
  induction h with
  | value htree => exact Token.isValue_of_tree? htree
  | @sign placed op tree operand hop hoperand ih =>
      rwa [List.getLast?_cons_of_ne_nil hoperand.ne_nil]

theorem Row.getLast?_isValue {chain : Chain} {tokens : List Placed} (h : Row chain tokens) :
    tokens.getLast?.any Placed.isValue = true := by
  cases h with
  | single hoperand => exact hoperand.getLast?_isValue
  | @push chain placed op tree left right hrow hop hoperand =>
      obtain ⟨last, hlast, hisValue⟩ := (Option.any_eq_true _ _).1 hoperand.getLast?_isValue
      rw [List.getLast?_append, List.getLast?_cons_of_ne_nil hoperand.ne_nil, hlast]
      exact hisValue

namespace Settings

variable {settings : Settings}

/-- The tokens that are arranged. -/
def starred (settings : Settings) (tokens : List Placed) : List Placed :=
  if settings.implicitProducts then insertStars tokens else tokens

theorem arrange_eq (tokens : List Placed) :
    settings.arrange tokens =
      (resolve (settings.starred tokens) >>= fun resolution =>
        resolution.assemble settings.maxHeight (settings.starred tokens)) := rfl

theorem starred_append_operator (left : List Placed) {op : Placed} (h : op.isValue = false)
    (right : List Placed) :
    settings.starred (left ++ op :: right) =
      settings.starred left ++ op :: settings.starred right := by
  unfold starred
  split
  · exact insertStars_append_operator left h right
  · rfl

theorem starred_signed {tree : Expr} {tokens : List Placed} (h : Signed tree tokens) :
    settings.starred tokens = tokens := by
  unfold starred
  split
  · exact h.insertStars_eq
  · rfl

end Settings

/-- What the grammar reads where no parenthesis opens. -/
def Phrase.Flat (settings : Settings) (tokens : List Placed) : Phrase → Prop
  | .value tree => ∃ placed, tokens = [placed] ∧ placed.token.tree? = some tree
  | .operand tree => Signed tree tokens
  | .chain written => Row written (settings.starred tokens)
  | .formula _ => True
  | .arguments _ => True

theorem Derives.flat {settings : Settings} {phrase : Phrase} {tokens : List Placed}
    (h : Derives settings phrase tokens) (hopen : OpenFree tokens) :
    phrase.Flat settings tokens := by
  induction h with
  | @token placed tree htree => exact ⟨placed, rfl, htree⟩
  | @call name position opening =>
      cases hopen ⟨.openParen, opening⟩ (List.mem_cons_of_mem _ List.mem_cons_self)
  | @group opening => cases hopen ⟨.openParen, opening⟩ List.mem_cons_self
  | bare hvalue ih =>
      obtain ⟨placed, rfl, htree⟩ := ih hopen
      exact Signed.value htree
  | sign hop hoperand ih =>
      exact Signed.sign hop (ih fun placed hmem => hopen placed (List.mem_cons_of_mem _ hmem))
  | first hoperand ih =>
      have hsigned : Signed _ _ := ih hopen
      change Row _ _
      rw [Settings.starred_signed hsigned]
      exact .single hsigned
  | @operator chain placed op tree left right hchain hop hoperand ihchain ihoperand =>
      have hrow : Row chain (settings.starred left) :=
        ihchain fun placed hmem => hopen placed (List.mem_append_left _ hmem)
      have hsigned : Signed tree right := ihoperand fun placed hmem =>
        hopen placed (List.mem_append_right _ (List.mem_cons_of_mem _ hmem))
      change Row _ _
      rw [Settings.starred_append_operator left (Token.isValue_of_binary? hop),
        Settings.starred_signed hsigned]
      exact hrow.push hop hsigned
  | @juxtaposed chain tree left right himplicit hchain hvalue hseam ihchain ihvalue =>
      have hrow : Row chain (settings.starred left) :=
        ihchain fun placed hmem => hopen placed (List.mem_append_left _ hmem)
      obtain ⟨next, rfl, htree⟩ :=
        ihvalue fun placed hmem => hopen placed (List.mem_append_right _ hmem)
      rw [Settings.starred, if_pos himplicit] at hrow
      obtain ⟨last, hlast, hisValue⟩ := (Option.any_eq_true _ _).1 hrow.getLast?_isValue
      rw [getLast?_insertStars] at hlast
      obtain ⟨before, rfl⟩ := List.getLast?_eq_some_iff.1 hlast
      change Row _ _
      rw [Settings.starred, if_pos himplicit,
        insertStars_append_values before hisValue (Token.isValue_of_tree? htree)]
      exact hrow.push rfl (.value htree)
  | formula => trivial
  | lastArgument => trivial
  | argument => trivial

theorem Signed.derives (settings : Settings) {tree : Expr} {tokens : List Placed}
    (h : Signed tree tokens) : Derives settings (.operand tree) tokens := by
  induction h with
  | value htree => exact .bare (.token htree)
  | sign hop hoperand ih => exact .sign hop ih

theorem Row.derives {settings : Settings} {chain : Chain} {tokens : List Placed}
    (h : Row chain (settings.starred tokens)) : Derives settings (.chain chain) tokens := by
  generalize hstarred : settings.starred tokens = starred at h
  unfold Settings.starred at hstarred
  induction h generalizing tokens with
  | single hoperand =>
      split at hstarred
      · rw [hoperand.eq_of_insertStars hstarred]
        exact .first (hoperand.derives settings)
      · rw [hstarred]
        exact .first (hoperand.derives settings)
  | @push chain placed op tree left right hrow hop hoperand ih =>
      by_cases himplicit : settings.implicitProducts = true
      · rw [if_pos himplicit] at hstarred
        simp only [himplicit, if_true] at ih
        rcases splits_of_insertStars (Token.isValue_of_binary? hop) hstarred with
          ⟨before, after, rfl, hbefore, hafter⟩ |
          ⟨before, last, next, after, rfl, _, hnext, hstar, hbefore, hafter⟩
        · rw [← hoperand.eq_of_insertStars hafter] at hoperand
          exact .operator (ih hbefore) hop (hoperand.derives settings)
        · have heq := hoperand.eq_of_insertStars hafter
          rw [hstar] at hop
          obtain rfl : BinaryOperator.mul = op := Option.some.inj hop
          rw [← heq] at hoperand
          cases hoperand with
          | value htree =>
              refine .juxtaposed himplicit (ih hbefore) (.token htree) fun hseam => ?_
              have hopens : next.token.isOpen = true := hseam.2
              have hnot : next.token.isOpen = false := Token.isOpen_of_isValue hnext
              rw [hopens] at hnot
              cases hnot
          | sign hop hoperand =>
              have hnot : next.isValue = false := Token.isValue_of_unary? hop
              rw [hnext] at hnot
              cases hnot
      · rw [if_neg himplicit] at hstarred
        rw [hstarred]
        simp only [himplicit] at ih
        exact .operator (ih rfl) hop (hoperand.derives settings)

/-- Tokens without parentheses are arranged as the grammar reads them. -/
theorem Settings.arrange_eq_ok_iff {settings : Settings} {tokens : List Placed}
    (hopen : OpenFree tokens) {tree : Expr} :
    settings.arrange tokens = .ok tree ↔
      Derives settings (.formula tree) tokens ∧ tree.levels ≤ settings.maxHeight := by
  rw [arrange_eq, resolve_assemble_eq_ok_iff]
  constructor
  · rintro ⟨arrangement, hrow, hordered, rfl, hlevels⟩
    exact ⟨.formula hrow.derives (Arrangement.layered_zero_iff.2 hordered), hlevels⟩
  · rintro ⟨hderives, hlevels⟩
    cases hderives with
    | formula hchain hlayered =>
        exact ⟨_, hchain.flat hopen, Arrangement.layered_zero_iff.1 hlayered, rfl, hlevels⟩

end Formula
