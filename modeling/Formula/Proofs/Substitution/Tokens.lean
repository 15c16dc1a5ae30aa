/-
Formulas in parentheses in the place of variables.  What the grammar reads is cut between
its own tokens, so a cut never goes through the parentheses that have been put in, and the
tokens can be cut alike before and after.
-/
import Formula.Proofs.Balance
import Formula.Proofs.Collapse.Collapsed

namespace Formula

/-- The tokens of a formula in parentheses, wherever a variable stands. -/
inductive Replaced (name : String) (inner : List Placed) : List Placed → List Placed → Prop
  | nil : Replaced name inner [] []
  | keep {placed : Placed} {rest full : List Placed} (hname : placed.token ≠ .identifier name)
      (h : Replaced name inner rest full) : Replaced name inner (placed :: rest) (placed :: full)
  | replace {position opening closing : Nat} {rest full : List Placed}
      (h : Replaced name inner rest full) :
      Replaced name inner (⟨.identifier name, position⟩ :: rest)
        (⟨.openParen, opening⟩ :: (inner ++ ⟨.closeParen, closing⟩ :: full))

namespace Replaced

variable {name : String} {inner tokens full left right : List Placed}

theorem eq_nil_iff (h : Replaced name inner tokens full) : tokens = [] ↔ full = [] := by
  cases h <;> simp

theorem split (h : Replaced name inner (left ++ right) full) :
    ∃ fullLeft fullRight, full = fullLeft ++ fullRight ∧ Replaced name inner left fullLeft ∧
      Replaced name inner right fullRight := by
  induction left generalizing full with
  | nil => exact ⟨[], full, rfl, .nil, h⟩
  | cons placed left ih =>
      cases h with
      | keep hname h =>
          obtain ⟨fullLeft, fullRight, rfl, hleft, hright⟩ := ih h
          exact ⟨placed :: fullLeft, fullRight, rfl, .keep hname hleft, hright⟩
      | @replace position opening closing _ _ h =>
          obtain ⟨fullLeft, fullRight, rfl, hleft, hright⟩ := ih h
          refine ⟨⟨.openParen, opening⟩ :: (inner ++ ⟨.closeParen, closing⟩ :: fullLeft), fullRight,
            ?_, .replace hleft, hright⟩
          simp

/-- A token that is not the variable stays. -/
theorem cons_of_ne {placed : Placed} (h : Replaced name inner (placed :: tokens) full)
    (hname : placed.token ≠ .identifier name) :
    ∃ rest, full = placed :: rest ∧ Replaced name inner tokens rest := by
  cases h with
  | keep hname h => exact ⟨_, rfl, h⟩
  | replace h => exact absurd rfl hname

/-- A token that is no parenthesis has not been put in. -/
theorem of_cons {placed : Placed} (h : Replaced name inner tokens (placed :: full))
    (hopen : placed.token ≠ .openParen) :
    ∃ rest, tokens = placed :: rest ∧ placed.token ≠ .identifier name ∧
      Replaced name inner rest full := by
  cases h with
  | keep hname h => exact ⟨_, rfl, hname, h⟩
  | replace h => exact absurd rfl hopen

/-- A cut of the new tokens in front of which all parentheses are closed is a cut of the old
ones. -/
theorem cut (hinner : Balanced inner) {depth : Nat} (hleft : openBehind depth left = some 0)
    (h : Replaced name inner tokens (left ++ right)) :
    ∃ before after, tokens = before ++ after ∧ Replaced name inner before left ∧
      Replaced name inner after right := by
  generalize hfull : left ++ right = full at h
  induction h generalizing left depth with
  | nil =>
      obtain ⟨rfl, rfl⟩ := List.append_eq_nil_iff.1 hfull
      exact ⟨[], [], rfl, .nil, .nil⟩
  | @keep placed rest full hname h ih =>
      cases left with
      | nil =>
          obtain rfl : right = placed :: full := hfull
          exact ⟨[], placed :: rest, rfl, .nil, .keep hname h⟩
      | cons first left =>
          obtain ⟨rfl, hrest⟩ := List.cons.inj hfull
          obtain ⟨next, _, hnext⟩ := Option.bind_eq_some_iff.1 hleft
          obtain ⟨before, after, rfl, hbefore, hafter⟩ := ih hnext hrest
          exact ⟨first :: before, after, rfl, .keep hname hbefore, hafter⟩
  | @replace position opening closing rest full h ih =>
      cases left with
      | nil =>
          obtain rfl := hfull
          exact ⟨[], ⟨.identifier name, position⟩ :: rest, rfl, .nil, .replace h⟩
      | cons first left =>
          obtain ⟨rfl, hrest⟩ := List.cons.inj hfull
          have hdeeper : openBehind (depth + 1) left = some 0 := hleft
          rcases List.append_eq_append_iff.1 hrest with ⟨more, hmore, _⟩ | ⟨more, rfl, hmore⟩
          · -- the cut would leave the parenthesis open
            rw [hmore] at hinner
            obtain ⟨opened, hopened, hle⟩ := hinner.exists_of_append (depth + 1)
            rw [hdeeper] at hopened
            obtain rfl := Option.some.inj hopened
            exact absurd hle (Nat.not_succ_le_zero depth)
          · rw [openBehind_append, hinner.openBehind_eq] at hdeeper
            cases more with
            | nil => cases hdeeper
            | cons close more =>
                obtain ⟨rfl, rfl⟩ := List.cons.inj hmore
                have hbehind : openBehind depth more = some 0 := hdeeper
                obtain ⟨before, after, rfl, hbefore, hafter⟩ := ih hbehind rfl
                exact ⟨⟨.identifier name, position⟩ :: before, after, rfl, .replace hbefore, hafter⟩

/-- A closing parenthesis at the end stays there. -/
theorem of_close {closing : Nat} (hinner : Balanced inner) (hfull : Balanced full)
    (h : Replaced name inner tokens (full ++ [⟨.closeParen, closing⟩])) :
    ∃ before, tokens = before ++ [⟨.closeParen, closing⟩] ∧ Replaced name inner before full := by
  obtain ⟨before, after, rfl, hbefore, hafter⟩ := cut hinner hfull h
  obtain ⟨rest, rfl, _, hrest⟩ := hafter.of_cons nofun
  obtain rfl := hrest.eq_nil_iff.2 rfl
  exact ⟨before, rfl, hbefore⟩

theorem head? (h : Replaced name inner tokens full) :
    full.head? = tokens.head? ∨
      startsOpen full = true ∧ ∃ position, tokens.head? = some ⟨.identifier name, position⟩ := by
  cases h with
  | nil => exact .inl rfl
  | keep hname h => exact .inl rfl
  | @replace position => exact .inr ⟨rfl, position, rfl⟩

theorem scanned (h : Replaced name inner tokens full)
    (htokens : ∀ placed ∈ tokens, placed.token.isScanned = true)
    (hinner : ∀ placed ∈ inner, placed.token.isScanned = true) :
    ∀ placed ∈ full, placed.token.isScanned = true := by
  induction h with
  | nil => exact htokens
  | keep hname h ih =>
      obtain ⟨hplaced, hrest⟩ := List.forall_mem_cons.1 htokens
      exact List.forall_mem_cons.2 ⟨hplaced, ih hrest⟩
  | replace h ih =>
      obtain ⟨_, hrest⟩ := List.forall_mem_cons.1 htokens
      refine List.forall_mem_cons.2 ⟨rfl, List.forall_mem_append.2 ⟨hinner, ?_⟩⟩
      exact List.forall_mem_cons.2 ⟨rfl, ih hrest⟩

theorem getLast? (h : Replaced name inner tokens full) :
    full.getLast? = tokens.getLast? ∨
      endsInName full = false ∧ ∃ position, tokens.getLast? = some ⟨.identifier name, position⟩ := by
  induction h with
  | nil => exact .inl rfl
  | @keep placed rest full hname h ih =>
      by_cases hnil : rest = []
      · obtain rfl := h.eq_nil_iff.1 hnil
        rw [hnil]
        exact .inl rfl
      · have hne : full ≠ [] := fun hfull => hnil (h.eq_nil_iff.2 hfull)
        rw [List.getLast?_cons_of_ne_nil hnil, List.getLast?_cons_of_ne_nil hne,
          ← List.singleton_append, endsInName_append_of_ne_nil _ hne]
        exact ih
  | @replace position opening closing rest full h ih =>
      by_cases hnil : rest = []
      · obtain rfl := h.eq_nil_iff.1 hnil
        rw [hnil]
        exact .inr ⟨endsInName_append_of_ne_nil (_ :: inner) (List.cons_ne_nil _ _), position, rfl⟩
      · have hne : full ≠ [] := fun hfull => hnil (h.eq_nil_iff.2 hfull)
        have hfront : (⟨.openParen, opening⟩ :: (inner ++ ⟨.closeParen, closing⟩ :: full) :
            List Placed) = (⟨.openParen, opening⟩ :: (inner ++ [⟨.closeParen, closing⟩])) ++ full := by
          simp
        rw [hfront, List.getLast?_append_of_ne_nil _ hne, List.getLast?_cons_of_ne_nil hnil,
          endsInName_append_of_ne_nil _ hne]
        exact ih

end Replaced

/-- Scanned tokens in which a variable may be replaced: it does not call a function, and no
name stands in front of it. -/
structure Replaceable (name : String) (tokens : List Placed) : Prop where
  scanned : ∀ placed ∈ tokens, placed.token.isScanned = true
  apart : tokens.IsChain fun left right =>
    ¬ (left.token = .identifier name ∧ right.token = .openParen) ∧
      ¬ (left.token.isName ∧ right.token = .identifier name)

namespace Replaceable

variable {name : String} {tokens left right : List Placed}

theorem segment (h : Replaceable name tokens) {inner : List Placed} (hinner : inner <:+: tokens) :
    Replaceable name inner where
  scanned placed hplaced := h.scanned placed (hinner.subset hplaced)
  apart := List.IsChain.infix h.apart hinner

theorem tail {placed : Placed} (h : Replaceable name (placed :: tokens)) :
    Replaceable name tokens := h.segment (List.suffix_cons _ _).isInfix

theorem of_append (h : Replaceable name (left ++ right)) :
    Replaceable name left ∧ Replaceable name right :=
  ⟨h.segment (List.prefix_append _ _).isInfix, h.segment (List.suffix_append _ _).isInfix⟩

/-- The name of a call is not the variable. -/
theorem ne_of_call {function : String} {position opening : Nat}
    (h : Replaceable name (⟨.identifier function, position⟩ :: ⟨.openParen, opening⟩ :: tokens)) :
    Token.identifier function ≠ .identifier name := by
  intro hname
  obtain ⟨hseam, _⟩ := List.isChain_cons_cons.1 h.apart
  exact hseam.1 ⟨hname, rfl⟩

/-- Two parts open a call between them exactly if they do with the variable replaced. -/
theorem opensCall_iff {inner fullLeft fullRight : List Placed}
    (h : Replaceable name (left ++ right))
    (hleft : Replaced name inner left fullLeft) (hright : Replaced name inner right fullRight) :
    endsInName fullLeft ∧ startsOpen fullRight ↔ endsInName left ∧ startsOpen right := by
  obtain ⟨_, _, hseam⟩ := List.isChain_append.1 h.apart
  rcases hleft.getLast? with hlast | ⟨hfullLast, position, hlast⟩
  · have hends : endsInName fullLeft = endsInName left := by rw [endsInName, hlast, endsInName]
    rcases hright.head? with hhead | ⟨hfullHead, position, hhead⟩
    · have hstarts : startsOpen fullRight = startsOpen right := by
        rw [startsOpen, hhead, startsOpen]
      rw [hends, hstarts]
    · rw [hends]
      constructor
      · rintro ⟨hname, _⟩
        obtain ⟨last, hmem, hisName⟩ := (Option.any_eq_true _ _).1 hname
        exact absurd ⟨hisName, rfl⟩ (hseam last hmem _ hhead).2
      · rintro ⟨_, hopen⟩
        rw [startsOpen, hhead] at hopen
        cases hopen
  · constructor
    · rintro ⟨hname, _⟩
      rw [hfullLast] at hname
      cases hname
    · rintro ⟨_, hopen⟩
      obtain ⟨opening, rest, rfl⟩ := eq_of_startsOpen hopen
      exact absurd ⟨rfl, rfl⟩ (hseam _ hlast _ rfl).1

/-- The parenthesis of a call has not been put in. -/
theorem of_open {inner full : List Placed} {function : String} {position opening : Nat}
    (hplain : Replaceable name (⟨.identifier function, position⟩ :: tokens))
    (h : Replaced name inner tokens (⟨.openParen, opening⟩ :: full)) :
    ∃ rest, tokens = ⟨.openParen, opening⟩ :: rest ∧ Replaced name inner rest full := by
  generalize htokens : (⟨.openParen, opening⟩ : Placed) :: full = list at h
  cases h with
  | nil => cases htokens
  | keep hname h =>
      obtain ⟨rfl, rfl⟩ := List.cons.inj htokens
      exact ⟨_, rfl, h⟩
  | replace h =>
      obtain ⟨hseam, _⟩ := List.isChain_cons_cons.1 hplain.apart
      exact absurd ⟨rfl, rfl⟩ hseam.2

end Replaceable

end Formula
