/-
Collapsing parenthesised groups, once calls are gone.  A list whose groups collapse is
the list of the grammar with its groups replaced; and where what stands in its
parentheses is parsed, a phrase of the grammar collapses to one that is read the same
and has no parentheses left.
-/
import Formula.Proofs.Collapse.Collapsed
import Formula.Proofs.Collapse.Splitting
import Formula.Proofs.Nesting
import Formula.Proofs.Outcome

namespace Formula

/-- What collapsing groups yields. -/
inductive GroupsCollapse (parse : InnerParser) : List Placed → List Placed → Prop
  | nil : GroupsCollapse parse [] []
  | group {opening : Nat} {rest inner after short : List Placed} {tree : Expr}
      (hsplit : splitGroup 0 [] rest = some (inner, after)) (hne : inner ≠ [])
      (hinner : parse inner = .ok tree) (h : GroupsCollapse parse after short) :
      GroupsCollapse parse (⟨.openParen, opening⟩ :: rest) (⟨.group tree, opening⟩ :: short)
  | keep {placed : Placed} {rest short : List Placed} (hopen : placed.token ≠ .openParen)
      (hclose : placed.token ≠ .closeParen) (h : GroupsCollapse parse rest short) :
      GroupsCollapse parse (placed :: rest) (placed :: short)

variable {parse : InnerParser} {settings : Settings}

theorem collapseGroups_group {opening : Nat} {rest inner after : List Placed}
    (hsplit : splitGroup 0 [] rest = some (inner, after)) (hne : inner ≠ []) :
    collapseGroups parse (⟨.openParen, opening⟩ :: rest) =
      (parse inner >>= fun tree => collapseGroups parse after >>= fun short =>
        .ok (⟨.group tree, opening⟩ :: short)) := by
  rw [collapseGroups]
  dsimp only
  split
  · rename_i heq
    rw [hsplit] at heq
    cases heq
    exact absurd rfl hne
  · rename_i heq
    rw [hsplit] at heq
    cases heq
    rfl
  · rename_i heq
    rw [hsplit] at heq
    cases heq

theorem collapseGroups_empty {opening : Nat} {rest after : List Placed}
    (hsplit : splitGroup 0 [] rest = some ([], after)) :
    collapseGroups parse (⟨.openParen, opening⟩ :: rest) = .error ⟨.emptyBlock, opening⟩ := by
  rw [collapseGroups]
  dsimp only
  split
  · rfl
  · rename_i hne heq
    rw [hsplit] at heq
    cases heq
    exact absurd rfl hne
  · rename_i heq
    rw [hsplit] at heq
    cases heq

theorem collapseGroups_unclosed {opening : Nat} {rest : List Placed}
    (hsplit : splitGroup 0 [] rest = none) :
    collapseGroups parse (⟨.openParen, opening⟩ :: rest) = .error ⟨.unclosedBlock, opening⟩ := by
  rw [collapseGroups]
  dsimp only
  split
  · rename_i heq
    rw [hsplit] at heq
    cases heq
  · rename_i heq
    rw [hsplit] at heq
    cases heq
  · rfl

theorem collapseGroups_unmatched (closing : Nat) (rest : List Placed) :
    collapseGroups parse (⟨.closeParen, closing⟩ :: rest) = .error ⟨.unmatchedClose, closing⟩ := by
  rw [collapseGroups]
  rfl

theorem collapseGroups_nil : collapseGroups parse [] = .ok [] := by
  rw [collapseGroups]
  rfl

theorem collapseGroups_keep {placed : Placed} (hopen : placed.token ≠ .openParen)
    (hclose : placed.token ≠ .closeParen) (rest : List Placed) :
    collapseGroups parse (placed :: rest) =
      (collapseGroups parse rest >>= fun short => .ok (placed :: short)) := by
  obtain ⟨token, position⟩ := placed
  rw [collapseGroups]
  cases token <;> first | rfl | exact absurd rfl hopen | exact absurd rfl hclose

/-- A list is empty, opens with a group that is empty, closes or does not, or opens with a
parenthesis that closes nothing or a token that is kept. -/
@[elab_as_elim]
theorem groups_induction {motive : List Placed → Prop} (nil : motive [])
    (empty : ∀ opening rest after, splitGroup 0 [] rest = some ([], after) →
      motive (⟨.openParen, opening⟩ :: rest))
    (group : ∀ opening rest inner after, splitGroup 0 [] rest = some (inner, after) → inner ≠ [] →
      motive after → motive (⟨.openParen, opening⟩ :: rest))
    (unclosed : ∀ opening rest, splitGroup 0 [] rest = none →
      motive (⟨.openParen, opening⟩ :: rest))
    (unmatched : ∀ closing rest, motive (⟨.closeParen, closing⟩ :: rest))
    (keep : ∀ placed rest, placed.token ≠ .openParen → placed.token ≠ .closeParen →
      motive rest → motive (placed :: rest))
    (tokens : List Placed) : motive tokens := by
  induction tokens using collapseGroups.induct with
  | case1 => exact nil
  | case2 placed rest htoken after hsplit =>
      obtain ⟨token, position⟩ := placed
      obtain rfl : token = .openParen := htoken
      exact empty position rest after hsplit
  | case3 placed rest htoken inner after hne hsplit ih =>
      obtain ⟨token, position⟩ := placed
      obtain rfl : token = .openParen := htoken
      exact group position rest inner after hsplit hne ih
  | case4 placed rest htoken hsplit =>
      obtain ⟨token, position⟩ := placed
      obtain rfl : token = .openParen := htoken
      exact unclosed position rest hsplit
  | case5 placed rest htoken =>
      obtain ⟨token, position⟩ := placed
      obtain rfl : token = .closeParen := htoken
      exact unmatched position rest
  | case6 placed rest hopen hclose ih => exact keep placed rest hopen hclose ih

theorem collapseGroups_eq_ok_iff {tokens short : List Placed} :
    collapseGroups parse tokens = .ok short ↔ GroupsCollapse parse tokens short := by
  constructor
  · intro h
    induction tokens using groups_induction generalizing short with
    | nil =>
        rw [collapseGroups_nil] at h
        cases h
        exact .nil
    | empty opening rest after hsplit =>
        rw [collapseGroups_empty hsplit] at h
        cases h
    | group opening rest inner after hsplit hne ih =>
        rw [collapseGroups_group hsplit hne] at h
        obtain ⟨tree, hinner, hrest⟩ := bind_eq_ok_iff.1 h
        obtain ⟨tail, htail, hresult⟩ := bind_eq_ok_iff.1 hrest
        cases hresult
        exact .group hsplit hne hinner (ih htail)
    | unclosed opening rest hsplit =>
        rw [collapseGroups_unclosed hsplit] at h
        cases h
    | unmatched closing rest =>
        rw [collapseGroups_unmatched] at h
        cases h
    | keep placed rest hopen hclose ih =>
        rw [collapseGroups_keep hopen hclose] at h
        obtain ⟨tail, htail, hresult⟩ := bind_eq_ok_iff.1 h
        cases hresult
        exact .keep hopen hclose (ih htail)
  · intro h
    induction h with
    | nil => exact collapseGroups_nil
    | @group opening rest inner after short tree hsplit hne hinner h ih =>
        rw [collapseGroups_group hsplit hne]
        exact bind_eq_ok_iff.2 ⟨tree, hinner, bind_eq_ok_iff.2 ⟨short, ih, rfl⟩⟩
    | keep hopen hclose h ih =>
        rw [collapseGroups_keep hopen hclose, ih]
        rfl

theorem isOpen_of_ne {placed : Placed} (h : placed.token ≠ .openParen) :
    placed.token.isOpen = false := by
  obtain ⟨token, position⟩ := placed
  cases token <;> first | rfl | exact absurd rfl h

namespace GroupsCollapse

variable {tokens short : List Placed}

theorem eq_nil_iff (h : GroupsCollapse parse tokens short) : tokens = [] ↔ short = [] := by
  cases h <;> simp

theorem parenFree (h : GroupsCollapse parse tokens short) :
    ∀ placed ∈ short, placed.token ≠ .openParen ∧ placed.token ≠ .closeParen := by
  induction h with
  | nil =>
      intro placed hplaced
      cases hplaced
  | group hsplit hne hinner h ih =>
      intro placed hplaced
      rcases List.mem_cons.1 hplaced with rfl | hplaced
      · exact ⟨nofun, nofun⟩
      · exact ih placed hplaced
  | keep hopen hclose h ih =>
      intro placed hplaced
      rcases List.mem_cons.1 hplaced with rfl | hplaced
      · exact ⟨hopen, hclose⟩
      · exact ih placed hplaced

theorem openFree (h : GroupsCollapse parse tokens short) : OpenFree short :=
  fun placed hplaced => isOpen_of_ne (h.parenFree placed hplaced).1

/-- Another parser that parses alike what stands in the groups. -/
theorem imp {other : InnerParser} (h : GroupsCollapse parse tokens short)
    (hparse : ∀ tree position, ⟨.group tree, position⟩ ∈ short →
      ∀ inner, parse inner = .ok tree → other inner = .ok tree) :
    GroupsCollapse other tokens short := by
  induction h with
  | nil => exact .nil
  | @group opening rest inner after short tree hsplit hne hinner h ih =>
      apply GroupsCollapse.group hsplit hne (hparse tree opening List.mem_cons_self inner hinner)
      exact ih fun tree position hmem => hparse tree position (List.mem_cons_of_mem _ hmem)
  | keep hopen hclose h ih =>
      apply GroupsCollapse.keep hopen hclose
      exact ih fun tree position hmem => hparse tree position (List.mem_cons_of_mem _ hmem)

/-- Groups are replaced by what the grammar reads them as. -/
theorem collapsed (h : GroupsCollapse parse tokens short)
    (hparse : ∀ inner tree, parse inner = .ok tree → Derives settings (.formula tree) inner) :
    Collapsed settings true tokens short := by
  induction h with
  | nil => exact .nil
  | keep hopen hclose h ih => exact .keep ih
  | @group opening rest inner after short tree hsplit hne hinner h ih =>
      obtain ⟨closing, rfl⟩ := exists_closing hsplit
      have hgroup : Derives settings (.value (.block tree))
          (⟨.openParen, opening⟩ :: (inner ++ [⟨.closeParen, closing⟩])) :=
        .group (hparse inner tree hinner)
      have happend : (⟨.openParen, opening⟩ :: (inner ++ ⟨.closeParen, closing⟩ :: after) :
          List Placed) =
            (⟨.openParen, opening⟩ :: (inner ++ [⟨.closeParen, closing⟩])) ++ after := by
        simp
      rw [happend]
      exact .value rfl rfl hgroup (endsInName_append_of_ne_nil (_ :: inner) (List.cons_ne_nil _ _))
        (fun _ => rfl) ih

/-- Where the collapsed tokens come from. -/
theorem mem (h : GroupsCollapse parse tokens short) {placed : Placed} (hplaced : placed ∈ short) :
    placed ∈ tokens ∨ ∃ inner tree, placed.token = .group tree ∧ inner <:+: tokens ∧
      parse inner = .ok tree := by
  induction h with
  | nil => cases hplaced
  | @group opening rest inner after short tree hsplit hne hinner h ih =>
      obtain ⟨closing, rfl⟩ := exists_closing hsplit
      have hafter :
          after <:+: ⟨.openParen, opening⟩ :: (inner ++ ⟨.closeParen, closing⟩ :: after) :=
        segment_behind (⟨.openParen, opening⟩ :: inner) _ after
      rcases List.mem_cons.1 hplaced with rfl | hplaced
      · exact .inr ⟨inner, tree, rfl, segment_parentheses _ _ _ _, hinner⟩
      · rcases ih hplaced with hkept | ⟨segment, found, hgroup, hsegment, hok⟩
        · exact .inl (hafter.subset hkept)
        · exact .inr ⟨segment, found, hgroup, hsegment.trans hafter, hok⟩
  | @keep placed rest short hopen hclose h ih =>
      rcases List.mem_cons.1 hplaced with rfl | hplaced
      · exact .inl List.mem_cons_self
      · rcases ih hplaced with hkept | ⟨segment, found, hgroup, hsegment, hok⟩
        · exact .inl (List.mem_cons_of_mem _ hkept)
        · exact .inr ⟨segment, found, hgroup, hsegment.trans (List.suffix_cons _ _).isInfix, hok⟩

end GroupsCollapse

/-- Tokens collapse to other tokens, whatever follows. -/
structure GroupsCollapseTo (parse : InnerParser) (tokens short : List Placed) : Prop where
  openFree : OpenFree short
  collapse : ∀ rest more, GroupsCollapse parse rest more →
    GroupsCollapse parse (tokens ++ rest) (short ++ more)

namespace GroupsCollapseTo

theorem single {placed : Placed} (hopen : placed.token ≠ .openParen)
    (hclose : placed.token ≠ .closeParen) : GroupsCollapseTo parse [placed] [placed] where
  openFree other hother := by
    obtain rfl := List.mem_singleton.1 hother
    exact isOpen_of_ne hopen
  collapse _ _ h := .keep hopen hclose h

/-- A token that is seen as something that no parenthesis is. -/
theorem seen {α : Type} (view : Token → Option α) (hopen : view .openParen = none)
    (hclose : view .closeParen = none) {placed : Placed} {found : α}
    (h : view placed.token = some found) : GroupsCollapseTo parse [placed] [placed] :=
  .single (Token.ne_of_view view hopen h) (Token.ne_of_view view hclose h)

/-- A group collapses where what stands in it is parsed. -/
theorem group {opening closing : Nat} {inner : Expr} {tokens : List Placed}
    (hinner : Derives settings (.formula inner) tokens) (hok : parse tokens = .ok inner) :
    GroupsCollapseTo parse (⟨.openParen, opening⟩ :: (tokens ++ [⟨.closeParen, closing⟩]))
      [⟨.group inner, opening⟩] where
  openFree placed hplaced := by
    obtain rfl := List.mem_singleton.1 hplaced
    rfl
  collapse rest more hmore := by
    rw [List.cons_append, List.append_assoc]
    exact .group (splitGroup_close hinner.skipped closing rest) hinner.ne_nil hok hmore

theorem append {left right shortLeft shortRight : List Placed}
    (hleft : GroupsCollapseTo parse left shortLeft)
    (hright : GroupsCollapseTo parse right shortRight) :
    GroupsCollapseTo parse (left ++ right) (shortLeft ++ shortRight) where
  openFree other hother := by
    rcases List.mem_append.1 hother with hother | hother
    · exact hleft.openFree other hother
    · exact hright.openFree other hother
  collapse rest more h := by
    rw [List.append_assoc, List.append_assoc]
    exact hleft.collapse _ _ (hright.collapse rest more h)

end GroupsCollapseTo

theorem not_startsOpen_of_openFree {tokens : List Placed} (h : OpenFree tokens) :
    startsOpen tokens = false := by
  cases tokens with
  | nil => rfl
  | cons first rest => exact h first List.mem_cons_self

/-- Where what stands in its parentheses is parsed, a phrase without calls collapses to
the same phrase. -/
theorem Derives.groupsCollapseTo {phrase : Phrase} {tokens : List Placed}
    (h : Derives settings phrase tokens) (hfree : CallFree tokens)
    (hparse : Parses parse settings (phrase.gather Expr.groups) tokens) :
    ∃ short, GroupsCollapseTo parse tokens short ∧ Derives settings phrase short := by
  induction h with
  | @token placed tree htree => exact ⟨[placed], .seen Token.tree? rfl rfl htree, .token htree⟩
  | call => exact absurd ⟨rfl, rfl⟩ hfree.seam
  | @group opening closing inner tokens hinner ih =>
      have hok := hparse inner List.mem_cons_self tokens
        (segment_parentheses opening closing tokens []) hinner
      exact ⟨_, .group hinner hok, .token rfl⟩
  | bare hvalue ih =>
      obtain ⟨short, hcollapse, hderives⟩ := ih hfree hparse
      exact ⟨short, hcollapse, .bare hderives⟩
  | @sign placed op tree tokens hop hoperand ih =>
      obtain ⟨short, hcollapse, hderives⟩ := ih hfree.tail hparse.tail
      have hsign : GroupsCollapseTo parse [placed] [placed] := .seen Token.unary? rfl rfl hop
      exact ⟨placed :: short, hsign.append hcollapse, .sign hop hderives⟩
  | first hoperand ih =>
      rw [Phrase.gather_single] at hparse
      obtain ⟨short, hcollapse, hderives⟩ := ih hfree hparse
      exact ⟨short, hcollapse, .first hderives⟩
  | @operator chain placed op tree left right hchain hop hoperand ihchain ihoperand =>
      rw [Phrase.gather_push] at hparse
      obtain ⟨hfreeLeft, hfreeRight, _⟩ := hfree.of_append
      obtain ⟨shortLeft, hleft, hleftDerives⟩ := ihchain hfreeLeft hparse.of_append.1
      obtain ⟨shortRight, hright, hrightDerives⟩ :=
        ihoperand hfreeRight.tail hparse.of_append.2.tail
      have hoperator : GroupsCollapseTo parse [placed] [placed] := .seen Token.binary? rfl rfl hop
      exact ⟨shortLeft ++ placed :: shortRight, hleft.append (hoperator.append hright),
        .operator hleftDerives hop hrightDerives⟩
  | @juxtaposed chain tree left right himplicit hchain hvalue hseam ihchain ihvalue =>
      rw [Phrase.gather_push] at hparse
      obtain ⟨hfreeLeft, hfreeRight, _⟩ := hfree.of_append
      obtain ⟨shortLeft, hleft, hleftDerives⟩ := ihchain hfreeLeft hparse.of_append.1
      obtain ⟨shortRight, hright, hrightDerives⟩ := ihvalue hfreeRight hparse.of_append.2
      refine ⟨shortLeft ++ shortRight, hleft.append hright,
        .juxtaposed himplicit hleftDerives hrightDerives ?_⟩
      simp [not_startsOpen_of_openFree hright.openFree]
  | @formula tree tokens hchain hlayered ih =>
      rw [← Phrase.gather_formula fun _ _ _ => rfl] at hparse
      obtain ⟨short, hcollapse, hderives⟩ := ih hfree hparse
      exact ⟨short, hcollapse, .formula hderives hlayered⟩
  | lastArgument hformula ih =>
      rw [Phrase.gather_lastArgument] at hparse
      obtain ⟨short, hcollapse, hderives⟩ := ih hfree hparse
      exact ⟨short, hcollapse, .lastArgument hderives⟩
  | @argument tree trees position tokens rest hformula hrest ihformula ihrest =>
      rw [Phrase.gather_argument] at hparse
      obtain ⟨hfreeLeft, hfreeRight, _⟩ := hfree.of_append
      obtain ⟨shortFormula, hleft, hleftDerives⟩ := ihformula hfreeLeft hparse.of_append.1
      obtain ⟨shortRest, hright, hrightDerives⟩ :=
        ihrest hfreeRight.tail hparse.of_append.2.tail
      have hcomma : GroupsCollapseTo parse [⟨.comma, position⟩] [⟨.comma, position⟩] :=
        .single (fun hopen => by cases hopen) (fun hclose => by cases hclose)
      exact ⟨shortFormula ++ ⟨.comma, position⟩ :: shortRest,
        hleft.append (hcomma.append hright), .argument hleftDerives hrightDerives⟩

end Formula
