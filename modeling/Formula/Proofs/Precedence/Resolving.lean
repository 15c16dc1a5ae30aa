/-
What resolving finds.  Tokens are resolved exactly if they are a row, and the resolution of a
row is the tree of precedence climbing, operation for operation: every operator has the operands
that precedence gives it, and everything but the root is an operand once.
-/
import Formula.Proofs.Precedence.Climbing
import Mathlib.Data.List.Sort
import Mathlib.Logic.Relation

namespace Formula

/-- Whether an operator stands at an index. -/
def operatorAt (tokens : List Placed) (index : Nat) : Bool :=
  tokens[index]?.any (·.token.isOperator)

/-- Whether a value stands in front of an index. -/
def followsValue (tokens : List Placed) (index : Nat) : Bool :=
  index != 0 && tokens[index - 1]?.any Placed.isValue

theorem operatorAt_of_token {tokens : List Placed} {index : Nat} {placed : Placed}
    (h : tokens[index]? = some placed) : operatorAt tokens index = placed.token.isOperator := by
  rw [operatorAt, h]
  rfl

theorem followsValue_succ {tokens : List Placed} {index : Nat} {placed : Placed}
    (h : tokens[index]? = some placed) : followsValue tokens (index + 1) = placed.isValue := by
  rw [followsValue, Nat.add_sub_cancel, h]
  rfl

namespace Resolution

/-- What stands at an index is a value, a sign, or an operator that binds at least as tightly as
a priority. -/
def BindsAtLeast (resolution : Resolution) (tokens : List Placed) (priority index : Nat) : Prop :=
  (∃ placed, tokens[index]? = some placed ∧ placed.isValue = true) ∨
    ∃ operation, resolution.operation? index = some operation ∧
      (operation.isBinary = false ∨ priority ≤ operation.priority)

/-- The operation at an index that precedence asks for.  A sign follows no value and takes the
next token.  An operator follows a value; what is on its left binds at least as tightly, and what
is on its right binds more tightly. -/
inductive Ranks (resolution : Resolution) (tokens : List Placed) (index : Nat) : Operation → Prop
  | sign {placed : Placed} {op : UnaryOperator} (htoken : tokens[index]? = some placed)
      (hop : placed.token.unary? = some op) (hfront : followsValue tokens index = false) :
      Ranks resolution tokens index ⟨false, UnaryOperator.priority, [index + 1]⟩
  | operator {placed : Placed} {op : BinaryOperator} {left right : Nat}
      (htoken : tokens[index]? = some placed) (hop : placed.token.binary? = some op)
      (hfront : followsValue tokens index = true)
      (hleft : resolution.BindsAtLeast tokens op.priority left)
      (hright : resolution.BindsAtLeast tokens (op.priority + 1) right) :
      Ranks resolution tokens index ⟨true, op.priority, [left, right]⟩

/-- The indices below an index, its own included, as they are met from left to right. -/
inductive Walks (resolution : Resolution) : Nat → List Nat → Prop
  | value {index : Nat} (hnone : resolution.operation? index = none) :
      Walks resolution index [index]
  | sign {index operand : Nat} {operation : Operation} {visited : List Nat}
      (hsome : resolution.operation? index = some operation)
      (hoperands : operation.operands = [operand]) (hwalk : Walks resolution operand visited) :
      Walks resolution index (index :: visited)
  | operator {index left right : Nat} {operation : Operation} {before after : List Nat}
      (hsome : resolution.operation? index = some operation)
      (hoperands : operation.operands = [left, right]) (hleft : Walks resolution left before)
      (hright : Walks resolution right after) :
      Walks resolution index (before ++ index :: after)

/-- An operation has another index among its operands. -/
def Takes (resolution : Resolution) (index operand : Nat) : Prop :=
  ∃ operation, resolution.operation? index = some operation ∧ operand ∈ operation.operands

/-- From operand to operand. -/
def Reaches (resolution : Resolution) : Nat → Nat → Prop :=
  Relation.ReflTransGen resolution.Takes

theorem Walks.reaches {resolution : Resolution} {index : Nat} {visited : List Nat}
    (h : resolution.Walks index visited) : ∀ other ∈ visited, resolution.Reaches index other := by
  induction h with
  | value hnone =>
      intro other hother
      rw [List.mem_singleton.1 hother]
      exact .refl
  | @sign index operand operation visited hsome hoperands hwalk ih =>
      intro other hother
      rcases List.mem_cons.1 hother with rfl | hother
      · exact .refl
      · exact .head ⟨operation, hsome, by simp [hoperands]⟩ (ih other hother)
  | @operator index left right operation before after hsome hoperands hleft hright ihleft ihright =>
      intro other hother
      rcases List.mem_append.1 hother with hother | hother
      · exact .head ⟨operation, hsome, by simp [hoperands]⟩ (ihleft other hother)
      · rcases List.mem_cons.1 hother with rfl | hother
        · exact .refl
        · exact .head ⟨operation, hsome, by simp [hoperands]⟩ (ihright other hother)

/-- The tree that precedence gives to the tokens. -/
structure IsPrecedenceTree (resolution : Resolution) (tokens : List Placed) : Prop where
  /-- Every operator has one operation, and nothing else has one. -/
  keys : resolution.operations.keys = (List.range tokens.length).filter (operatorAt tokens)
  ranks : ∀ index operation, resolution.operation? index = some operation →
    resolution.Ranks tokens index operation
  /-- The root is no operand, and everything else is one exactly once. -/
  operands : (resolution.root :: resolution.operations.toList.flatMap (·.2.operands)).Perm
    (List.range tokens.length)
  reaches : ∀ index < tokens.length, resolution.Reaches resolution.root index
  walks : resolution.Walks resolution.root (List.range tokens.length)

end Resolution

namespace Located

/-- The operations of a tree, by index. -/
def entries : Located → List (Nat × Operation)
  | leaf _ _ => []
  | sign index _ operand =>
      (index, ⟨false, UnaryOperator.priority, [operand.root]⟩) :: operand.entries
  | operator index op left right =>
      left.entries ++ (index, ⟨true, op.priority, [left.root, right.root]⟩) :: right.entries

/-- The root and the operands are the indices of the tree. -/
theorem perm_inorder (tree : Located) :
    (tree.root :: tree.entries.flatMap (·.2.operands)).Perm tree.inorder := by
  induction tree with
  | leaf index tree => exact .refl _
  | sign index op operand ih => exact ih.cons index
  | operator index op left right ihleft ihright =>
      simp only [entries, inorder, root, List.flatMap_append, List.flatMap_cons]
      generalize left.entries.flatMap (·.2.operands) = before at ihleft
      generalize right.entries.flatMap (·.2.operands) = after at ihright
      calc (index :: (before ++ ([left.root, right.root] ++ after))).Perm
            (index :: left.root :: (before ++ right.root :: after)) := List.perm_middle.cons index
        List.Perm _ (left.root :: index :: (before ++ right.root :: after)) := .swap _ _ _
        List.Perm _ (left.root :: (before ++ index :: right.root :: after)) :=
            List.perm_middle.symm.cons left.root
        List.Perm _ (left.inorder ++ index :: right.inorder) := ihleft.append (ihright.cons index)

theorem map_fst_entries {tokens : List Placed} {tree : Located} (h : tree.Matches tokens) :
    tree.entries.map Prod.fst = tree.inorder.filter (operatorAt tokens) := by
  induction tree with
  | leaf index tree =>
      obtain ⟨placed, htoken, htree⟩ := h
      have hvalue := Token.isOperator_of_tree? htree
      simp [entries, inorder, operatorAt_of_token htoken, hvalue]
  | sign index op operand ih =>
      obtain ⟨⟨placed, htoken, hop⟩, hoperand⟩ := h
      have hoperator := Token.isOperator_of_unary? hop
      simp [entries, inorder, operatorAt_of_token htoken, hoperator, ih hoperand]
  | operator index op left right ihleft ihright =>
      obtain ⟨⟨placed, htoken, hop⟩, hleft, hright⟩ := h
      have hoperator := Token.isOperator_of_binary? hop
      simp [entries, inorder, operatorAt_of_token htoken, hoperator, ihleft hleft, ihright hright]

theorem Recorded.operation?_of_mem {claims : Claims} {tree : Located} (h : tree.Recorded claims)
    {entry : Nat × Operation} (hentry : entry ∈ tree.entries) :
    claims.operation? entry.1 = some entry.2 := by
  induction tree with
  | leaf index tree => cases hentry
  | sign index op operand ih =>
      obtain ⟨hop, _, hoperand⟩ := h
      rcases List.mem_cons.1 hentry with rfl | hentry
      · exact hop
      · exact ih hoperand hentry
  | operator index op left right ihleft ihright =>
      obtain ⟨hop, _, _, hleft, hright⟩ := h
      rcases List.mem_append.1 hentry with hentry | hentry
      · exact ihleft hleft hentry
      · rcases List.mem_cons.1 hentry with rfl | hentry
        · exact hop
        · exact ihright hright hentry

theorem Spans.root_eq_of_not_operator {tree : Located} {start stop : Nat}
    (hspans : tree.Spans start stop) (h : tree.isOperator = false) : tree.root = start := by
  cases tree with
  | operator index op left right => cases h
  | leaf | sign => exact hspans.1.symm

theorem ordered_of_not_operator {tree : Located} (h : tree.isOperator = false) :
    tree.arrangement.Ordered := by
  cases tree with
  | operator index op left right => cases h
  | leaf | sign => trivial

section Ranks

variable {tokens : List Placed} {resolution : Resolution}

/-- The last token of a tree is a value. -/
theorem followsValue_stop {tree : Located} {start stop : Nat} (hspans : tree.Spans start stop)
    (hmatches : tree.Matches tokens) : followsValue tokens stop = true := by
  induction tree generalizing start stop with
  | leaf index tree =>
      obtain ⟨rfl, rfl⟩ := hspans
      obtain ⟨placed, htoken, htree⟩ := hmatches
      rw [followsValue_succ htoken]
      exact Token.isValue_of_tree? htree
  | sign index op operand ih => exact ih hspans.2 hmatches.2
  | operator index op left right ihleft ihright => exact ihright hspans.2 hmatches.2.2

theorem bindsAtLeast_root {tree : Located} {priority : Nat} (hmatches : tree.Matches tokens)
    (hentries : ∀ entry ∈ tree.entries, resolution.operation? entry.1 = some entry.2)
    (hbinds : tree.arrangement.BindsAtLeast priority) :
    resolution.BindsAtLeast tokens priority tree.root := by
  cases tree with
  | leaf index tree =>
      obtain ⟨placed, htoken, htree⟩ := hmatches
      exact .inl ⟨placed, htoken, Token.isValue_of_tree? htree⟩
  | sign index op operand => exact .inr ⟨_, hentries _ List.mem_cons_self, .inl rfl⟩
  | operator index op left right =>
      exact .inr ⟨_, hentries _ (List.mem_append_right _ List.mem_cons_self), .inr hbinds⟩

/-- The operations of an ordered tree are the ones that precedence asks for. -/
theorem ranks_of_mem_entries {tree : Located} {start stop : Nat} (hspans : tree.Spans start stop)
    (hmatches : tree.Matches tokens) (hsigns : tree.SignsBind)
    (hordered : tree.arrangement.Ordered)
    (hentries : ∀ entry ∈ tree.entries, resolution.operation? entry.1 = some entry.2)
    (hfront : followsValue tokens start = false) :
    ∀ entry ∈ tree.entries, resolution.Ranks tokens entry.1 entry.2 := by
  induction tree generalizing start stop with
  | leaf index tree => exact nofun
  | sign index op operand ih =>
      obtain ⟨rfl, hspan⟩ := hspans
      obtain ⟨⟨placed, htoken, hop⟩, hoperand⟩ := hmatches
      obtain ⟨htop, hbelow⟩ := hsigns
      have hnext : followsValue tokens (start + 1) = false := by
        rw [followsValue_succ htoken]
        exact Token.isValue_of_unary? hop
      have hroot := hspan.root_eq_of_not_operator htop
      refine List.forall_mem_cons.2 ⟨hroot ▸ .sign htoken hop hfront, ?_⟩
      exact ih hspan hoperand hbelow (ordered_of_not_operator htop)
        (List.forall_mem_cons.1 hentries).2 hnext
  | operator index op left right ihleft ihright =>
      obtain ⟨hleftSpan, hrightSpan⟩ := hspans
      obtain ⟨⟨placed, htoken, hop⟩, hleft, hright⟩ := hmatches
      obtain ⟨hleftOrdered, hrightOrdered, hleftBinds, hrightBinds⟩ := hordered
      obtain ⟨hleftEntries, hrest⟩ := List.forall_mem_append.1 hentries
      obtain ⟨_, hrightEntries⟩ := List.forall_mem_cons.1 hrest
      have hnext : followsValue tokens (index + 1) = false := by
        rw [followsValue_succ htoken]
        exact Token.isValue_of_binary? hop
      refine List.forall_mem_append.2 ⟨?_, List.forall_mem_cons.2 ⟨?_, ?_⟩⟩
      · exact ihleft hleftSpan hleft hsigns.1 hleftOrdered hleftEntries hfront
      · exact .operator htoken hop (followsValue_stop hleftSpan hleft)
          (bindsAtLeast_root hleft hleftEntries hleftBinds)
          (bindsAtLeast_root hright hrightEntries hrightBinds)
      · exact ihright hrightSpan hright hsigns.2 hrightOrdered hrightEntries hnext

/-- Walking over the operations of a tree visits its indices from left to right. -/
theorem walks_inorder {tree : Located} (hmatches : tree.Matches tokens)
    (hentries : ∀ entry ∈ tree.entries, resolution.operation? entry.1 = some entry.2)
    (hoperators : ∀ index operation, resolution.operation? index = some operation →
      operatorAt tokens index = true) : resolution.Walks tree.root tree.inorder := by
  induction tree with
  | leaf index tree =>
      obtain ⟨placed, htoken, htree⟩ := hmatches
      apply Resolution.Walks.value
      rw [Option.eq_none_iff_forall_ne_some]
      intro operation hoperation
      have hoperator := hoperators index operation hoperation
      rw [operatorAt_of_token htoken, Token.isOperator_of_tree? htree] at hoperator
      cases hoperator
  | sign index op operand ih =>
      obtain ⟨hhead, hbelow⟩ := List.forall_mem_cons.1 hentries
      exact .sign hhead rfl (ih hmatches.2 hbelow)
  | operator index op left right ihleft ihright =>
      obtain ⟨hleft, hrest⟩ := List.forall_mem_append.1 hentries
      obtain ⟨hhead, hright⟩ := List.forall_mem_cons.1 hrest
      exact .operator hhead rfl (ihleft hmatches.2.1 hleft) (ihright hmatches.2.2 hright)

end Ranks

/-- Entries in the order of their indices are the same if they have the same members. -/
theorem entries_ext {first second : List (Nat × Operation)}
    (hfirst : first.Pairwise (·.1 < ·.1)) (hsecond : second.Pairwise (·.1 < ·.1))
    (h : ∀ entry, entry ∈ first ↔ entry ∈ second) : first = second := by
  have hnodup : ∀ {entries : List (Nat × Operation)}, entries.Pairwise (·.1 < ·.1) →
      entries.Nodup := fun hpairwise => hpairwise.imp fun hlt heq => by
    rw [heq] at hlt
    exact Nat.lt_irrefl _ hlt
  have hperm := (List.perm_ext_iff_of_nodup (hnodup hfirst) (hnodup hsecond)).2 h
  exact hperm.eq_of_pairwise (fun _ _ _ _ hlt hgt => absurd hlt (Nat.lt_asymm hgt)) hfirst hsecond

namespace Resolves

variable {tokens : List Placed} {resolution : Resolution} {tree : Located}

theorem operation?_of_mem (h : tree.Resolves tokens resolution) :
    ∀ entry ∈ tree.entries, resolution.operation? entry.1 = some entry.2 := by
  obtain ⟨claims, hclaims, hrecorded⟩ := h.recorded
  intro entry hentry
  rw [Resolution.operation?, hclaims]
  exact hrecorded.operation?_of_mem hentry

theorem operatorAt_of_operation? (h : tree.Resolves tokens resolution) {index : Nat}
    {operation : Operation} (hoperation : resolution.operation? index = some operation) :
    operatorAt tokens index = true := by
  obtain ⟨placed, htoken, hoperator⟩ := h.operators index operation hoperation
  rw [operatorAt_of_token htoken, hoperator]

theorem inorder_eq (h : tree.Resolves tokens resolution) :
    tree.inorder = List.range tokens.length := by
  rw [h.spans.inorder_eq, List.range_eq_range', Nat.sub_zero]

theorem keys_entries (h : tree.Resolves tokens resolution) :
    tree.entries.map Prod.fst = (List.range tokens.length).filter (operatorAt tokens) := by
  rw [map_fst_entries h.matched, h.inorder_eq]

/-- A resolution has the operations of its tree and no others. -/
theorem mem_entries_iff (h : tree.Resolves tokens resolution) {entry : Nat × Operation} :
    entry ∈ tree.entries ↔ resolution.operation? entry.1 = some entry.2 := by
  refine ⟨h.operation?_of_mem entry, fun hoperation => ?_⟩
  have hoperator := h.operatorAt_of_operation? hoperation
  have hlt : entry.1 < tokens.length := by
    obtain ⟨placed, htoken, _⟩ := h.operators _ _ hoperation
    exact (List.getElem?_eq_some_iff.1 htoken).1
  have hkey : entry.1 ∈ tree.entries.map Prod.fst := by
    rw [h.keys_entries]
    exact List.mem_filter.2 ⟨List.mem_range.2 hlt, hoperator⟩
  obtain ⟨other, hother, hindex⟩ := List.mem_map.1 hkey
  have hsame := h.operation?_of_mem other hother
  rw [hindex, hoperation] at hsame
  rwa [Prod.ext hindex (Option.some.inj hsame).symm] at hother

theorem toList_operations (h : tree.Resolves tokens resolution) :
    resolution.operations.toList = tree.entries := by
  apply entries_ext
  · exact resolution.operations.ordered_keys_toList.imp fun hlt => Nat.compare_eq_lt.1 hlt
  · have hkeys : (tree.entries.map Prod.fst).Pairwise (· < ·) := by
      rw [h.keys_entries]
      exact List.pairwise_lt_range.filter _
    exact List.pairwise_map.1 hkeys
  · intro entry
    exact Std.TreeMap.mem_toList_iff_getElem?_eq_some.trans h.mem_entries_iff.symm

theorem isPrecedenceTree (h : tree.Resolves tokens resolution) :
    resolution.IsPrecedenceTree tokens := by
  have hwalks : resolution.Walks resolution.root (List.range tokens.length) := by
    rw [h.root, ← h.inorder_eq]
    exact walks_inorder h.matched h.operation?_of_mem fun _ _ => h.operatorAt_of_operation?
  constructor
  case keys => rw [← Std.TreeMap.map_fst_toList_eq_keys, h.toList_operations, h.keys_entries]
  case ranks =>
    intro index operation hoperation
    exact ranks_of_mem_entries h.spans h.matched h.signsBind h.ordered h.operation?_of_mem rfl
      (index, operation) (h.mem_entries_iff.2 hoperation)
  case operands =>
    rw [h.toList_operations, h.root, ← h.inorder_eq]
    exact tree.perm_inorder
  case reaches => exact fun index hlt => hwalks.reaches index (List.mem_range.2 hlt)
  case walks => exact hwalks

end Resolves

end Located

/-- Tokens are resolved exactly if they are a row: values behind any number of signs, with binary
operators between them.  What they are resolved to is the tree that precedence gives them, and
the one that precedence climbing builds, which fails where resolving does. -/
theorem resolve_eq_climb (tokens : List Placed) :
    ((∃ resolution, resolve tokens = .ok resolution) ↔ ∃ chain, Row chain tokens) ∧
    (∀ resolution, resolve tokens = .ok resolution → resolution.IsPrecedenceTree tokens) ∧
    (resolve tokens).toOption.map (fun found => (found.root, found.operations.toList)) =
      (Located.climb? tokens).map fun tree => (tree.root, tree.entries) := by
  have hrow : (∃ resolution, resolve tokens = .ok resolution) ↔ ∃ chain, Row chain tokens := by
    constructor
    · exact fun ⟨_, hok⟩ => row_of_resolve hok
    · rintro ⟨chain, hchain⟩
      obtain ⟨resolution, _, hok, _⟩ := hchain.resolve
      exact ⟨resolution, hok⟩
  have hresolves : ∀ resolution, resolve tokens = .ok resolution →
      ∃ tree : Located, tree.Resolves tokens resolution := by
    intro resolution hok
    obtain ⟨chain, hchain⟩ := row_of_resolve hok
    obtain ⟨found, tree, hfound, hresolves, _⟩ := hchain.resolve
    obtain rfl := Except.ok.inj (hok.symm.trans hfound)
    exact ⟨tree, hresolves⟩
  refine ⟨hrow, fun resolution hok => ?_, ?_⟩
  · obtain ⟨tree, htree⟩ := hresolves resolution hok
    exact htree.isPrecedenceTree
  · cases hresolve : resolve tokens with
    | ok resolution =>
        obtain ⟨tree, htree⟩ := hresolves resolution hresolve
        have hclimb :=
          Located.climb?_eq_some htree.spans htree.matched htree.signsBind htree.ordered
        rw [hclimb]
        change some (resolution.root, resolution.operations.toList) = some (tree.root, tree.entries)
        rw [htree.root, htree.toList_operations]
    | error error =>
        cases hclimb : Located.climb? tokens with
        | none => rfl
        | some tree =>
            obtain ⟨resolution, hok⟩ := hrow.2 (Located.row_of_climb? hclimb)
            rw [hresolve] at hok
            cases hok

/-- The tokens of `a--b^c-d`. -/
def differences : List Placed :=
  [⟨.identifier "a", 0⟩, ⟨.minus, 1⟩, ⟨.minus, 2⟩, ⟨.identifier "b", 3⟩, ⟨.caret, 4⟩,
    ⟨.identifier "c", 5⟩, ⟨.minus, 6⟩, ⟨.identifier "d", 7⟩]

theorem row_differences : ∃ chain, Row chain differences := by
  have ha : Signed (.var "a") [⟨.identifier "a", 0⟩] := .value rfl
  have hb : Signed (.unary .negate (.var "b")) [⟨.minus, 2⟩, ⟨.identifier "b", 3⟩] :=
    .sign rfl (.value rfl)
  have hc : Signed (.var "c") [⟨.identifier "c", 5⟩] := .value rfl
  have hd : Signed (.var "d") [⟨.identifier "d", 7⟩] := .value rfl
  have hminus : (Placed.mk .minus 1).token.binary? = some .sub := rfl
  have hcaret : (Placed.mk .caret 4).token.binary? = some .pow := rfl
  have hlast : (Placed.mk .minus 6).token.binary? = some .sub := rfl
  exact ⟨_, (((Row.single ha).push hminus hb).push hcaret hc).push hlast hd⟩

/-- The second difference takes the first, and the sign binds tighter than the power. -/
theorem resolve_differences : ∃ resolution, resolve differences = .ok resolution ∧
    resolution.IsPrecedenceTree differences ∧ resolution.root = 6 ∧
    resolution.operations.toList = [(1, ⟨true, 4, [0, 4]⟩), (2, ⟨false, 256, [3]⟩),
      (4, ⟨true, 6, [2, 5]⟩), (6, ⟨true, 4, [1, 7]⟩)] := by
  obtain ⟨hrow, htree, hclimb⟩ := resolve_eq_climb differences
  obtain ⟨resolution, hok⟩ := hrow.2 row_differences
  rw [hok] at hclimb
  have hfound : (Located.climb? differences).map (fun tree => (tree.root, tree.entries)) =
      some (6, [(1, ⟨true, 4, [0, 4]⟩), (2, ⟨false, 256, [3]⟩), (4, ⟨true, 6, [2, 5]⟩),
        (6, ⟨true, 4, [1, 7]⟩)]) := by
    simp [differences, Located.climb?, Located.read?, Located.readLinks?, Located.climb,
      Token.tree?, Token.unary?, Token.binary?, BinaryOperator.priority, Located.entries,
      Located.root, UnaryOperator.priority]
  obtain ⟨hroot, hoperations⟩ := Prod.ext_iff.1 (Option.some.inj (hclimb.trans hfound))
  exact ⟨resolution, hok, htree resolution hok, hroot, hoperations⟩

end Formula
