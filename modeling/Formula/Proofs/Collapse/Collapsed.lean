/-
Tokens some of whose values are collapsed to single tokens.  What the grammar reads of
the collapsed tokens it reads of the tokens they stand for: a single token carries
the tree of what it replaces.  Only seams have to be watched, where a name could come
to stand in front of a parenthesis.
-/
import Formula.Proofs.Grammar
import Formula.Token.Collapse
import Mathlib.Data.List.Chain

namespace Formula

theorem endsInName_append_of_ne_nil (left : List Placed) {right : List Placed} (h : right ≠ []) :
    endsInName (left ++ right) = endsInName right := by
  obtain ⟨before, last, rfl⟩ := List.eq_nil_or_concat' right |>.resolve_left h
  simp [endsInName]

theorem startsOpen_append_of_ne_nil {left : List Placed} (h : left ≠ []) (right : List Placed) :
    startsOpen (left ++ right) = startsOpen left := by
  obtain ⟨first, rest, rfl⟩ := List.exists_cons_of_ne_nil h
  rfl

/-- No name stands in front of a parenthesis. -/
def CallFree (tokens : List Placed) : Prop :=
  tokens.IsChain fun left right => ¬ (left.token.isName = true ∧ right.token.isOpen = true)

theorem CallFree.of_append {left right : List Placed} (h : CallFree (left ++ right)) :
    CallFree left ∧ CallFree right ∧ ¬ (endsInName left ∧ startsOpen right) := by
  obtain ⟨hleft, hright, hseam⟩ := List.isChain_append.1 h
  refine ⟨hleft, hright, ?_⟩
  rintro ⟨hname, hopens⟩
  obtain ⟨last, hlast, hisName⟩ := (Option.any_eq_true _ _).1 hname
  obtain ⟨first, hfirst, hisOpen⟩ := (Option.any_eq_true _ _).1 hopens
  exact hseam last hlast first hfirst ⟨hisName, hisOpen⟩

theorem CallFree.cons {placed : Placed} {rest : List Placed}
    (hseam : ¬ (placed.token.isName ∧ startsOpen rest)) (hrest : CallFree rest) :
    CallFree (placed :: rest) := by
  cases rest with
  | nil => exact List.isChain_singleton placed
  | cons next rest => exact List.isChain_cons_cons.2 ⟨hseam, hrest⟩

theorem CallFree.tail {placed : Placed} {rest : List Placed} (h : CallFree (placed :: rest)) :
    CallFree rest := List.IsChain.of_cons h

theorem CallFree.seam {placed : Placed} {rest : List Placed} (h : CallFree (placed :: rest)) :
    ¬ (placed.token.isName ∧ startsOpen rest) := by
  cases rest with
  | nil => exact fun hseam => by cases hseam.2
  | cons next rest => exact (List.isChain_cons_cons.1 h).1

theorem CallFree.segment {tokens segment : List Placed} (h : CallFree tokens)
    (hsegment : segment <:+: tokens) : CallFree segment :=
  List.IsChain.infix h hsegment

theorem OpenFree.callFree {tokens : List Placed} (h : OpenFree tokens) : CallFree tokens := by
  induction tokens with
  | nil => exact List.isChain_nil
  | cons placed rest ih =>
      have hrest : OpenFree rest := fun other hother => h other (List.mem_cons_of_mem _ hother)
      refine .cons (fun hseam => ?_) (ih hrest)
      obtain ⟨opening, tail, rfl⟩ := eq_of_startsOpen hseam.2
      cases hrest ⟨.openParen, opening⟩ List.mem_cons_self

/-- The parser finds these trees wherever a segment of the tokens is a formula of them. -/
def Parses (parse : InnerParser) (settings : Settings) (trees : List Expr)
    (tokens : List Placed) : Prop :=
  ∀ tree ∈ trees, ∀ inner, inner <:+: tokens →
    Derives settings (.formula tree) inner → parse inner = .ok tree

namespace Parses

variable {parse : InnerParser} {settings : Settings} {trees others : List Expr}
  {tokens left right : List Placed}

theorem segment (h : Parses parse settings trees tokens) {inner : List Placed}
    (hsegment : inner <:+: tokens) : Parses parse settings trees inner :=
  fun tree htree other hother => h tree htree other (hother.trans hsegment)

theorem tail {placed : Placed} (h : Parses parse settings trees (placed :: tokens)) :
    Parses parse settings trees tokens := h.segment (List.suffix_cons _ _).isInfix

theorem of_append (h : Parses parse settings (trees ++ others) (left ++ right)) :
    Parses parse settings trees left ∧ Parses parse settings others right := by
  constructor
  · exact fun tree htree =>
      h.segment (List.prefix_append _ _).isInfix tree (List.mem_append_left _ htree)
  · exact fun tree htree =>
      h.segment (List.suffix_append _ _).isInfix tree (List.mem_append_right _ htree)

end Parses

/-- A list of tokens and the same list with some of its values collapsed.  Unless it
is allowed, no value that is collapsed opens with a parenthesis. -/
inductive Collapsed (settings : Settings) (opens : Bool) : List Placed → List Placed → Prop
  | nil : Collapsed settings opens [] []
  | keep {placed : Placed} {full short : List Placed} (h : Collapsed settings opens full short) :
      Collapsed settings opens (placed :: full) (placed :: short)
  | value {placed : Placed} {tree : Expr} {tokens full short : List Placed}
      (htree : placed.token.tree? = some tree) (hname : placed.token.isName = false)
      (hvalue : Derives settings (.value tree) tokens) (hends : endsInName tokens = false)
      (hstarts : startsOpen tokens = true → opens = true)
      (h : Collapsed settings opens full short) :
      Collapsed settings opens (tokens ++ full) (placed :: short)

namespace Collapsed

variable {settings : Settings} {opens : Bool} {full short : List Placed}

theorem of_append {left right : List Placed} (h : Collapsed settings opens full (left ++ right)) :
    ∃ fullLeft fullRight, full = fullLeft ++ fullRight ∧
      Collapsed settings opens fullLeft left ∧ Collapsed settings opens fullRight right := by
  induction left generalizing full with
  | nil => exact ⟨[], full, rfl, .nil, h⟩
  | cons placed left ih =>
      cases h with
      | keep h =>
          obtain ⟨fullLeft, fullRight, rfl, hleft, hright⟩ := ih h
          exact ⟨placed :: fullLeft, fullRight, rfl, .keep hleft, hright⟩
      | value htree hname hvalue hends hstarts h =>
          obtain ⟨fullLeft, fullRight, rfl, hleft, hright⟩ := ih h
          exact ⟨_ ++ fullLeft, fullRight, (List.append_assoc _ _ _).symm,
            .value htree hname hvalue hends hstarts hleft, hright⟩

/-- A token without a tree has replaced nothing. -/
theorem cons_of_tree?_eq_none {placed : Placed}
    (h : Collapsed settings opens full (placed :: short)) (htree : placed.token.tree? = none) :
    ∃ rest, full = placed :: rest ∧ Collapsed settings opens rest short := by
  cases h with
  | keep h => exact ⟨_, rfl, h⟩
  | value hsome => rw [htree] at hsome; cases hsome

theorem cons_of_isName {placed : Placed} (h : Collapsed settings opens full (placed :: short))
    (hisName : placed.token.isName = true) :
    ∃ rest, full = placed :: rest ∧ Collapsed settings opens rest short := by
  cases h with
  | keep h => exact ⟨_, rfl, h⟩
  | value _ hname => rw [hisName] at hname; cases hname

theorem eq_nil_iff (h : Collapsed settings opens full short) : full = [] ↔ short = [] := by
  cases h with
  | nil => simp
  | keep h => simp
  | value htree hname hvalue hends hstarts h => simp [hvalue.ne_nil]

theorem endsInName_imp (h : Collapsed settings opens full short)
    (hfull : endsInName full = true) : endsInName short = true := by
  induction h with
  | nil => exact hfull
  | @keep placed full short h ih =>
      by_cases hnil : full = []
      · rw [h.eq_nil_iff.1 hnil]
        rwa [hnil] at hfull
      · have hne : short ≠ [] := fun hshort => hnil (h.eq_nil_iff.2 hshort)
        rw [← List.singleton_append, endsInName_append_of_ne_nil _ hnil] at hfull
        rw [← List.singleton_append, endsInName_append_of_ne_nil _ hne]
        exact ih hfull
  | @value placed tree tokens full short htree hname hvalue hends hstarts h ih =>
      by_cases hnil : full = []
      · rw [hnil, List.append_nil, hends] at hfull
        cases hfull
      · have hne : short ≠ [] := fun hshort => hnil (h.eq_nil_iff.2 hshort)
        rw [endsInName_append_of_ne_nil _ hnil] at hfull
        rw [← List.singleton_append, endsInName_append_of_ne_nil _ hne]
        exact ih hfull

theorem startsOpen_imp (h : Collapsed settings false full short)
    (hfull : startsOpen full = true) : startsOpen short = true := by
  cases h with
  | nil => exact hfull
  | keep h => exact hfull
  | value htree hname hvalue hends hstarts h =>
      rw [startsOpen_append_of_ne_nil hvalue.ne_nil] at hfull
      cases hstarts hfull

end Collapsed

/-- The grammar reads collapsed tokens as it reads the tokens they stand for. -/
theorem Derives.of_collapsed {settings : Settings} {opens : Bool} {phrase : Phrase}
    {short full : List Placed} (h : Derives settings phrase short)
    (hcollapsed : Collapsed settings opens full short) (hfree : opens = true → CallFree full) :
    Derives settings phrase full := by
  induction h generalizing full with
  | @token placed tree htree =>
      cases hcollapsed with
      | keep h =>
          rw [h.eq_nil_iff.2 rfl]
          exact .token htree
      | value hsome _ hvalue _ _ h =>
          obtain rfl := Option.some.inj (htree.symm.trans hsome)
          rwa [h.eq_nil_iff.2 rfl, List.append_nil]
  | @call name position opening closing arguments function tokens harguments hfunction ih =>
      obtain ⟨afterName, rfl, hname⟩ := hcollapsed.cons_of_isName rfl
      obtain ⟨afterOpen, rfl, hopen⟩ := hname.cons_of_tree?_eq_none rfl
      obtain ⟨inner, close, rfl, hinner, hclose⟩ := hopen.of_append
      obtain ⟨rest, rfl, hrest⟩ := hclose.cons_of_tree?_eq_none rfl
      rw [hrest.eq_nil_iff.2 rfl]
      have hinnerFree : opens = true → CallFree inner := fun hopens =>
        (hfree hopens).tail.tail.of_append.1
      exact .call (ih hinner hinnerFree) hfunction
  | @group opening closing inner tokens hinner ih =>
      obtain ⟨afterOpen, rfl, hopen⟩ := hcollapsed.cons_of_tree?_eq_none rfl
      obtain ⟨inner, close, rfl, hinner, hclose⟩ := hopen.of_append
      obtain ⟨rest, rfl, hrest⟩ := hclose.cons_of_tree?_eq_none rfl
      rw [hrest.eq_nil_iff.2 rfl]
      have hinnerFree : opens = true → CallFree inner := fun hopens =>
        (hfree hopens).tail.of_append.1
      exact .group (ih hinner hinnerFree)
  | bare hvalue ih => exact .bare (ih hcollapsed hfree)
  | @sign placed op tree tokens hop hoperand ih =>
      obtain ⟨rest, rfl, hrest⟩ := hcollapsed.cons_of_tree?_eq_none (Token.tree?_of_unary? hop)
      exact .sign hop (ih hrest fun hopens => (hfree hopens).tail)
  | first hoperand ih => exact .first (ih hcollapsed hfree)
  | @operator chain placed op tree left right hchain hop hoperand ihchain ihoperand =>
      obtain ⟨fullLeft, more, rfl, hleft, hmore⟩ := hcollapsed.of_append
      obtain ⟨fullRight, rfl, hright⟩ := hmore.cons_of_tree?_eq_none (Token.tree?_of_binary? hop)
      refine .operator (ihchain hleft fun hopens => (hfree hopens).of_append.1) hop
        (ihoperand hright fun hopens => ?_)
      exact (hfree hopens).of_append.2.1.tail
  | @juxtaposed chain tree left right himplicit hchain hvalue hseam ihchain ihvalue =>
      obtain ⟨fullLeft, fullRight, rfl, hleft, hright⟩ := hcollapsed.of_append
      refine .juxtaposed himplicit (ihchain hleft fun hopens => (hfree hopens).of_append.1)
        (ihvalue hright fun hopens => (hfree hopens).of_append.2.1) ?_
      cases opens with
      | true => exact (hfree rfl).of_append.2.2
      | false =>
          rintro ⟨hname, hopen⟩
          exact hseam ⟨hleft.endsInName_imp hname, hright.startsOpen_imp hopen⟩
  | formula hchain hlayered ih => exact .formula (ih hcollapsed hfree) hlayered
  | lastArgument hformula ih => exact .lastArgument (ih hcollapsed hfree)
  | @argument tree trees position tokens rest hformula hrest ihformula ihrest =>
      obtain ⟨fullTokens, more, rfl, htokens, hmore⟩ := hcollapsed.of_append
      obtain ⟨fullRest, rfl, hfullRest⟩ := hmore.cons_of_tree?_eq_none rfl
      refine .argument (ihformula htokens fun hopens => (hfree hopens).of_append.1)
        (ihrest hfullRest fun hopens => ?_)
      exact (hfree hopens).of_append.2.1.tail

end Formula
