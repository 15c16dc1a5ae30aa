/-
A tree is derived from its own tokens.  They are a formula of the grammar wherever they
stand, since the operators between two operands are the same and no value follows
another without one.
-/
import Formula.Proofs.Printing.Tokens

namespace Formula

variable {settings : Settings}

namespace Chain

/-- The operands with their operators in front of them. -/
def tokens (chain : Chain) : List Token :=
  chain.first.tokens ++ chain.rest.flatMap fun (op, operand) => op.token :: operand.tokens

theorem tokens_single (operand : Expr) : (single operand).tokens = operand.tokens :=
  List.append_nil _

theorem tokens_push (chain : Chain) (op : BinaryOperator) (operand : Expr) :
    (chain.push op operand).tokens = chain.tokens ++ op.token :: operand.tokens := by
  simp [tokens, push]

theorem tokens_join (left : Chain) (op : BinaryOperator) (right : Chain) :
    (left.join op right).tokens = left.tokens ++ op.token :: right.tokens := by
  simp [tokens, join]

end Chain

namespace Arrangement

theorem tokens_chain (tree : Arrangement) : tree.chain.tokens = tree.expr.tokens := by
  induction tree with
  | operand tree => exact Chain.tokens_single tree
  | operator op left right ihleft ihright =>
      rw [chain, Chain.tokens_join, ihleft, ihright, expr, Expr.tokens]

end Arrangement

namespace Phrase

def tokens : Phrase → List Token
  | value tree => tree.tokens
  | operand tree => tree.tokens
  | chain written => written.tokens
  | formula tree => tree.tokens
  | arguments trees => separateTokens (trees.map Expr.tokens)

end Phrase

theorem eq_cons_of_map {written : List Placed} {token : Token} {tokens : List Token}
    (h : written.map Placed.token = token :: tokens) :
    ∃ position rest, written = ⟨token, position⟩ :: rest ∧ rest.map Placed.token = tokens := by
  obtain ⟨⟨_, position⟩, rest, rfl, rfl, hrest⟩ := List.map_eq_cons_iff.1 h
  exact ⟨position, rest, rfl, hrest⟩

theorem eq_append_cons_of_map {written : List Placed} {left right : List Token} {token : Token}
    (h : written.map Placed.token = left ++ token :: right) :
    ∃ first position rest, written = first ++ ⟨token, position⟩ :: rest ∧
      first.map Placed.token = left ∧ rest.map Placed.token = right := by
  obtain ⟨first, more, rfl, hfirst, hmore⟩ := List.map_eq_append_iff.1 h
  obtain ⟨position, rest, rfl, hrest⟩ := eq_cons_of_map hmore
  exact ⟨first, position, rest, rfl, hfirst, hrest⟩

theorem eq_singleton_of_map {written : List Placed} {token : Token}
    (h : written.map Placed.token = [token]) : ∃ position, written = [⟨token, position⟩] := by
  obtain ⟨position, rest, rfl, hrest⟩ := eq_cons_of_map h
  obtain rfl := List.map_eq_nil_iff.1 hrest
  exact ⟨position, rfl⟩

/-- Whatever is derived is derived from its own tokens again, as it is written. -/
theorem Derives.asWritten {phrase : Phrase} {tokens : List Placed}
    (h : Derives settings phrase tokens)
    (hscanned : ∀ placed ∈ tokens, placed.token.isScanned = true) {written : List Placed}
    (hwritten : written.map Placed.token = phrase.tokens) :
    Derives settings (phrase.map Expr.asWritten) written := by
  induction h generalizing written with
  | @token placed tree htree =>
      have htoken := hscanned placed List.mem_cons_self
      obtain ⟨token, position⟩ := placed
      cases token with
      | number value =>
          cases htree
          obtain ⟨position, rfl⟩ := eq_singleton_of_map hwritten
          exact .token (Expr.tree?_numberToken value)
      | identifier name =>
          cases htree
          obtain ⟨position, rfl⟩ := eq_singleton_of_map hwritten
          exact .token rfl
      | group | call => cases htoken
      | _ => cases htree
  | @call name position opening closing arguments function tokens harguments hfunction ih =>
      obtain rfl := hfunction.1.1
      obtain ⟨position, afterName, rfl, hafterName⟩ := eq_cons_of_map hwritten
      obtain ⟨opening, afterOpening, rfl, hafterOpening⟩ := eq_cons_of_map hafterName
      obtain ⟨inner, closing, rest, rfl, hinner, hrest⟩ := eq_append_cons_of_map hafterOpening
      obtain rfl := List.map_eq_nil_iff.1 hrest
      rw [Expr.tokenLists_eq_map] at hinner
      have hscannedArguments := fun placed hplaced =>
        hscanned placed ((segment_call _ _ _ tokens []).subset hplaced)
      have hlength :
          settings.Binds function.name (arguments.map Expr.asWritten).length function := by
        rw [List.length_map]
        exact hfunction
      change Derives settings (.value (function.call (Expr.allAsWritten arguments))) _
      rw [Expr.allAsWritten_eq_map]
      exact .call (ih hscannedArguments hinner) hlength
  | @group opening closing inner tokens hinner ih =>
      obtain ⟨opening, afterOpening, rfl, hafterOpening⟩ := eq_cons_of_map hwritten
      obtain ⟨inside, closing, rest, rfl, hinside, hrest⟩ := eq_append_cons_of_map hafterOpening
      obtain rfl := List.map_eq_nil_iff.1 hrest
      have hscannedInside := fun placed hplaced =>
        hscanned placed ((segment_parentheses _ _ tokens []).subset hplaced)
      exact .group (ih hscannedInside hinside)
  | bare hvalue ih => exact .bare (ih hscanned hwritten)
  | @sign placed op tree tokens hop hoperand ih =>
      obtain ⟨position, rest, rfl, hrest⟩ := eq_cons_of_map hwritten
      exact .sign op.unary?_token (ih (List.forall_mem_cons.1 hscanned).2 hrest)
  | @first tree tokens hoperand ih =>
      rw [Phrase.tokens, Chain.tokens_single] at hwritten
      exact .first (ih hscanned hwritten)
  | @operator chain placed op tree left right hchain hop hoperand ihchain ihoperand =>
      rw [Phrase.tokens, Chain.tokens_push] at hwritten
      obtain ⟨first, position, rest, rfl, hfirst, hrest⟩ := eq_append_cons_of_map hwritten
      obtain ⟨hscannedLeft, hscannedRight⟩ := List.forall_mem_append.1 hscanned
      rw [Phrase.map, Chain.map_push]
      exact .operator (ihchain hscannedLeft hfirst) op.binary?_token
        (ihoperand (List.forall_mem_cons.1 hscannedRight).2 hrest)
  | @juxtaposed chain tree left right himplicit hchain hvalue hseam ihchain ihvalue =>
      -- the star is written
      rw [Phrase.tokens, Chain.tokens_push] at hwritten
      obtain ⟨first, position, rest, rfl, hfirst, hrest⟩ := eq_append_cons_of_map hwritten
      obtain ⟨hscannedLeft, hscannedRight⟩ := List.forall_mem_append.1 hscanned
      rw [Phrase.map, Chain.map_push]
      exact .operator (ihchain hscannedLeft hfirst) (BinaryOperator.binary?_token .mul)
        (.bare (ihvalue hscannedRight hrest))
  | @formula tree tokens hchain hlayered ih =>
      rw [Phrase.tokens, ← tree.tokens_chain] at hwritten
      have hmapped := ih hscanned hwritten
      rw [Phrase.map, ← tree.chain_map] at hmapped
      rw [Phrase.map, ← @Arrangement.expr_map Expr.asWritten (fun _ _ _ => rfl) tree]
      exact .formula hmapped ((Arrangement.layered_map _).2 hlayered)
  | lastArgument hformula ih => exact .lastArgument (ih hscanned hwritten)
  | @argument tree trees position tokens rest hformula hrest ihformula ihrest =>
      obtain ⟨next, more, rfl⟩ : ∃ next more, trees = next :: more := by
        cases trees with
        | nil => cases hrest
        | cons next more => exact ⟨next, more, rfl⟩
      obtain ⟨first, position, others, rfl, hfirst, hothers⟩ := eq_append_cons_of_map hwritten
      obtain ⟨hscannedFormula, hscannedRest⟩ := List.forall_mem_append.1 hscanned
      exact .argument (ihformula hscannedFormula hfirst)
        (ihrest (List.forall_mem_cons.1 hscannedRest).2 hothers)

end Formula
