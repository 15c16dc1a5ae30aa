/-
The tokens of a tree, and the tree that they are read as.  Every operator of the tree
is among its tokens, and a number beyond all doubles is the name that it is written
with.
-/
import Formula.Proofs.Parsing

namespace Formula

def UnaryOperator.token : UnaryOperator → Token
  | identity => .plus
  | negate => .minus

theorem UnaryOperator.unary?_token (op : UnaryOperator) : op.token.unary? = some op := by
  cases op <;> rfl

def BinaryOperator.token : BinaryOperator → Token
  | add => .plus
  | sub => .minus
  | mul => .star
  | div => .slash
  | mod => .percent
  | pow => .caret

theorem BinaryOperator.binary?_token (op : BinaryOperator) : op.token.binary? = some op := by
  cases op <;> rfl

/-- Lists of tokens with commas between them. -/
def separateTokens : List (List Token) → List Token
  | [] => []
  | [argument] => argument
  | argument :: next :: rest => argument ++ .comma :: separateTokens (next :: rest)

theorem mem_separateTokens {lists : List (List Token)} {token : Token}
    (h : token ∈ separateTokens lists) : token = .comma ∨ ∃ list ∈ lists, token ∈ list := by
  induction lists using separateTokens.induct with
  | case1 => cases h
  | case2 argument => exact .inr ⟨argument, List.mem_cons_self, h⟩
  | case3 argument next rest ih =>
      rw [separateTokens] at h
      rcases List.mem_append.1 h with hargument | hmore
      · exact .inr ⟨argument, List.mem_cons_self, hargument⟩
      · rcases List.mem_cons.1 hmore with hcomma | hrest
        · exact .inl hcomma
        · obtain hcomma | ⟨list, hlist, htoken⟩ := ih hrest
          · exact .inl hcomma
          · exact .inr ⟨list, List.mem_cons_of_mem _ hlist, htoken⟩

namespace Expr

def numberToken (value : Float) : Token :=
  if Binary64.code value = Binary64.infinity then .identifier "inf" else .number value

mutual

/-- The tokens of a tree, as they are written from left to right. -/
def tokens : Expr → List Token
  | number value => [numberToken value]
  | var name => [.identifier name]
  | call name arguments _ =>
      .identifier name :: .openParen :: (separateTokens (tokenLists arguments) ++ [.closeParen])
  | block inner => .openParen :: (tokens inner ++ [.closeParen])
  | unary op operand => op.token :: tokens operand
  | binary op left right => tokens left ++ op.token :: tokens right

def tokenLists : List Expr → List (List Token)
  | [] => []
  | expr :: rest => tokens expr :: tokenLists rest

end

mutual

/-- The tree as it is written: a number beyond all doubles is a name. -/
def asWritten : Expr → Expr
  | number value =>
      if Binary64.code value = Binary64.infinity then var "inf" else number value
  | var name => var name
  | call name arguments implementation => call name (allAsWritten arguments) implementation
  | block inner => block (asWritten inner)
  | unary op operand => unary op (asWritten operand)
  | binary op left right => binary op (asWritten left) (asWritten right)

def allAsWritten : List Expr → List Expr
  | [] => []
  | expr :: rest => asWritten expr :: allAsWritten rest

end

theorem tokenLists_eq_map (exprs : List Expr) : tokenLists exprs = exprs.map tokens := by
  induction exprs with
  | nil => rfl
  | cons expr rest ih => rw [tokenLists, ih, List.map_cons]

theorem allAsWritten_eq_map (exprs : List Expr) : allAsWritten exprs = exprs.map asWritten := by
  induction exprs with
  | nil => rfl
  | cons expr rest ih => rw [allAsWritten, ih, List.map_cons]

theorem tree?_numberToken (value : Float) :
    (numberToken value).tree? = some (asWritten (.number value)) := by
  rw [numberToken, asWritten]
  split <;> rfl

theorem isScanned_numberToken (value : Float) : (numberToken value).isScanned = true := by
  rw [numberToken]
  split <;> rfl

theorem isScanned_unary (op : UnaryOperator) : op.token.isScanned = true := by
  cases op <;> rfl

theorem isScanned_binary (op : BinaryOperator) : op.token.isScanned = true := by
  cases op <;> rfl

mutual

/-- No token of a tree carries a tree. -/
theorem isScanned_of_mem_tokens (tree : Expr) : ∀ token ∈ tree.tokens, token.isScanned = true := by
  intro token htoken
  cases tree with
  | number value =>
      obtain rfl := List.mem_singleton.1 htoken
      exact isScanned_numberToken value
  | var name =>
      obtain rfl := List.mem_singleton.1 htoken
      rfl
  | call name arguments implementation =>
      simp only [tokens, List.mem_cons, List.mem_append, List.not_mem_nil, or_false] at htoken
      obtain rfl | rfl | hargument | rfl := htoken
      · rfl
      · rfl
      · obtain rfl | ⟨list, hlist, htoken⟩ := mem_separateTokens hargument
        · rfl
        · exact isScanned_of_mem_tokenLists arguments list hlist token htoken
      · rfl
  | block inner =>
      simp only [tokens, List.mem_cons, List.mem_append, List.not_mem_nil, or_false] at htoken
      obtain rfl | hinner | rfl := htoken
      · rfl
      · exact isScanned_of_mem_tokens inner token hinner
      · rfl
  | unary op operand =>
      rcases List.mem_cons.1 htoken with rfl | hoperand
      · exact isScanned_unary op
      · exact isScanned_of_mem_tokens operand token hoperand
  | binary op left right =>
      simp only [tokens, List.mem_cons, List.mem_append] at htoken
      obtain hleft | rfl | hright := htoken
      · exact isScanned_of_mem_tokens left token hleft
      · exact isScanned_binary op
      · exact isScanned_of_mem_tokens right token hright

theorem isScanned_of_mem_tokenLists (trees : List Expr) :
    ∀ list ∈ tokenLists trees, ∀ token ∈ list, token.isScanned = true := by
  intro list hlist
  cases trees with
  | nil => cases hlist
  | cons first rest =>
      rcases List.mem_cons.1 hlist with rfl | hrest
      · exact isScanned_of_mem_tokens first
      · exact isScanned_of_mem_tokenLists rest list hrest

end

mutual

/-- A name stands as high as the number that it is written for. -/
theorem levels_asWritten (tree : Expr) : tree.asWritten.levels = tree.levels := by
  cases tree with
  | number value =>
      rw [asWritten]
      split <;> rfl
  | var name => rfl
  | call name arguments implementation =>
      rw [asWritten, levels, levels, maxLevels_allAsWritten arguments]
  | block inner => rw [asWritten, levels, levels, levels_asWritten inner]
  | unary op operand => rw [asWritten, levels, levels, levels_asWritten operand]
  | binary op left right =>
      rw [asWritten, levels, levels, levels_asWritten left, levels_asWritten right]

theorem maxLevels_allAsWritten (trees : List Expr) :
    maxLevels (allAsWritten trees) = maxLevels trees := by
  cases trees with
  | nil => rfl
  | cons first rest =>
      rw [allAsWritten, maxLevels, maxLevels, levels_asWritten first, maxLevels_allAsWritten rest]

end

theorem groupDepth_asWritten (tree : Expr) : tree.asWritten.groupDepth = tree.groupDepth := by
  induction tree using groupDepth.induct with
  | case1 value =>
      rw [asWritten]
      split <;> rfl
  | case2 | case3 => rfl
  | case4 inner ih => exact congrArg (· + 1) ih
  | case5 op operand ih => exact ih
  | case6 op left right ihleft ihright =>
      rw [asWritten, groupDepth, groupDepth, ihleft, ihright]

mutual

theorem callDepth_asWritten (tree : Expr) : tree.asWritten.callDepth = tree.callDepth := by
  cases tree with
  | number value =>
      rw [asWritten]
      split <;> rfl
  | var name => rfl
  | call name arguments implementation =>
      rw [asWritten, callDepth, callDepth, argumentsDepth_allAsWritten arguments]
  | block inner => exact callDepth_asWritten inner
  | unary op operand => exact callDepth_asWritten operand
  | binary op left right =>
      rw [asWritten, callDepth, callDepth, callDepth_asWritten left, callDepth_asWritten right]

theorem argumentsDepth_allAsWritten (trees : List Expr) :
    argumentsDepth (allAsWritten trees) = argumentsDepth trees := by
  cases trees with
  | nil => rfl
  | cons first rest =>
      rw [allAsWritten, argumentsDepth, argumentsDepth, callDepth_asWritten first,
        groupDepth_asWritten first, argumentsDepth_allAsWritten rest]

end

theorem countedDepth_asWritten (tree : Expr) : tree.asWritten.countedDepth = tree.countedDepth := by
  rw [countedDepth, countedDepth, callDepth_asWritten, groupDepth_asWritten]

end Expr

end Formula
