/-
What the assembly of a resolution builds.  Whatever is resolved, a tree that is
assembled is no higher than there is room, and more room builds the same tree.  A tree
that the operations describe is assembled if no token is in it twice; so the resolution
of a row assembles to the tree that it stands for.
-/
import Formula.Precedence.Assembly
import Formula.Proofs.Height
import Formula.Proofs.Precedence.Row

namespace Formula

namespace Slots

theorem getElem?_ofTokens (tokens : List Placed) (index : Nat) :
    (ofTokens tokens)[index]? = tokens[index]?.map some := by
  simp [ofTokens]

theorem take?_eq_some_iff {slots rest : Slots} {index : Nat} {placed : Placed} :
    slots.take? index = some (placed, rest) ↔
      slots[index]? = some (some placed) ∧ rest = slots.setIfInBounds index none := by
  unfold take?
  split
  · rename_i found hfound
    simp [hfound, eq_comm]
  · rename_i hempty
    simp only [reduceCtorEq, false_iff, not_and]
    exact fun hfound => absurd hfound (hempty placed)

theorem take?_of_held {slots : Slots} {tokens : List Placed} {index : Nat} {placed : Placed}
    (h : slots[index]? = tokens[index]?.map some) (htoken : tokens[index]? = some placed) :
    slots.take? index = some (placed, slots.setIfInBounds index none) := by
  refine take?_eq_some_iff.2 ⟨?_, rfl⟩
  rw [h, htoken]
  rfl

theorem getElem?_take_ne (slots : Slots) {index other : Nat} (h : other ≠ index) :
    (slots.setIfInBounds index none)[other]? = slots[other]? :=
  Array.getElem?_setIfInBounds_ne (Ne.symm h)

end Slots

/-- At an index there is no token left, or one that carries a tree, or an operator, for which
there is no room or room below it. -/
@[elab_as_elim]
theorem assembly_induction {motive : Nat → Nat → Nat → Slots → Prop}
    (missing : ∀ room level index slots, slots.take? index = none → motive room level index slots)
    (leaf : ∀ room level index slots placed taken tree, slots.take? index = some (placed, taken) →
      placed.token.tree? = some tree → motive room level index slots)
    (full : ∀ level index slots placed taken, slots.take? index = some (placed, taken) →
      placed.token.tree? = none → motive 0 level index slots)
    (operator : ∀ room level index slots placed taken, slots.take? index = some (placed, taken) →
      placed.token.tree? = none → (∀ level index slots, motive room level index slots) →
      motive (room + 1) level index slots)
    (room level index : Nat) (slots : Slots) : motive room level index slots := by
  induction room generalizing level index slots with
  | zero =>
      cases htake : slots.take? index with
      | none => exact missing 0 level index slots htake
      | some found =>
          cases htree : found.1.token.tree? with
          | none => exact full level index slots found.1 found.2 htake htree
          | some tree => exact leaf 0 level index slots found.1 found.2 tree htake htree
  | succ room ih =>
      cases htake : slots.take? index with
      | none => exact missing (room + 1) level index slots htake
      | some found =>
          cases htree : found.1.token.tree? with
          | none => exact operator room level index slots found.1 found.2 htake htree ih
          | some tree => exact leaf (room + 1) level index slots found.1 found.2 tree htake htree

namespace Resolution

variable {resolution : Resolution} {tokens : List Placed}

/-- What is assembled below a token, with room for so many levels. -/
inductive Assembles (resolution : Resolution) : Nat → Nat → Slots → Expr → Slots → Prop
  | leaf {room index : Nat} {slots rest : Slots} {placed : Placed} {tree : Expr}
      (htake : slots.take? index = some (placed, rest))
      (htree : placed.token.tree? = some tree) (hroom : tree.height ≤ room) :
      Assembles resolution room index slots tree rest
  | unary {room index operand : Nat} {slots taken rest : Slots} {placed : Placed}
      {op : UnaryOperator} {tree : Expr} (htake : slots.take? index = some (placed, taken))
      (htree : placed.token.tree? = none)
      (hnode : resolution.node? index placed.token = some (.unary op operand))
      (hoperand : Assembles resolution room operand taken tree rest) :
      Assembles resolution (room + 1) index slots (.unary op tree) rest
  | binary {room index left right : Nat} {slots taken middle rest : Slots} {placed : Placed}
      {op : BinaryOperator} {leftTree rightTree : Expr}
      (htake : slots.take? index = some (placed, taken)) (htree : placed.token.tree? = none)
      (hnode : resolution.node? index placed.token = some (.binary op left right))
      (hleft : Assembles resolution room left taken leftTree middle)
      (hright : Assembles resolution room right middle rightTree rest) :
      Assembles resolution (room + 1) index slots (.binary op leftTree rightTree) rest

theorem assembleAt_leaf {room level index : Nat} {slots rest : Slots} {placed : Placed}
    {tree : Expr} (htake : slots.take? index = some (placed, rest))
    (htree : placed.token.tree? = some tree) :
    resolution.assembleAt room level index slots =
      if tree.height ≤ room then .ok (tree, rest)
      else .error ⟨.tooDeep (level + tree.height - 1), placed.position⟩ := by
  rw [assembleAt.eq_def, htake]
  simp only [htree]
  rfl

theorem assembleAt_zero {level index : Nat} {slots taken : Slots} {placed : Placed}
    (htake : slots.take? index = some (placed, taken)) (htree : placed.token.tree? = none) :
    resolution.assembleAt 0 level index slots = .error ⟨.tooDeep level, placed.position⟩ := by
  rw [assembleAt.eq_def, htake]
  simp only [htree]
  rfl

theorem assembleAt_succ {room level index : Nat} {slots taken : Slots} {placed : Placed}
    (htake : slots.take? index = some (placed, taken)) (htree : placed.token.tree? = none) :
    resolution.assembleAt (room + 1) level index slots =
      match resolution.node? index placed.token with
      | none => .error ⟨.noRootOperation, placed.position⟩
      | some (.unary op operand) =>
          resolution.assembleAt room (level + 1) operand taken >>= fun found =>
            .ok (.unary op found.1, found.2)
      | some (.binary op left right) =>
          resolution.assembleAt room (level + 1) left taken >>= fun found =>
            resolution.assembleAt room (level + 1) right found.2 >>= fun next =>
              .ok (.binary op found.1 next.1, next.2) := by
  rw [assembleAt.eq_def, htake]
  simp only [htree]
  rfl

theorem assembleAt_none {room level index : Nat} {slots : Slots}
    (htake : slots.take? index = none) :
    resolution.assembleAt room level index slots = .error ⟨.noRootOperation, 0⟩ := by
  rw [assembleAt.eq_def, htake]
  rfl

theorem assembles_of_assembleAt {room level index : Nat} {slots rest : Slots} {tree : Expr}
    (h : resolution.assembleAt room level index slots = .ok (tree, rest)) :
    resolution.Assembles room index slots tree rest := by
  induction room, level, index, slots using assembly_induction generalizing rest tree with
  | missing room level index slots htake =>
      rw [assembleAt_none htake] at h
      cases h
  | leaf room level index slots placed taken leaf htake htree =>
      rw [assembleAt_leaf htake htree] at h
      by_cases hroom : leaf.height ≤ room
      · rw [if_pos hroom] at h
        cases h
        exact .leaf htake htree hroom
      · rw [if_neg hroom] at h
        cases h
  | full level index slots placed taken htake htree =>
      rw [assembleAt_zero htake htree] at h
      cases h
  | operator room level index slots placed taken htake htree ih =>
      rw [assembleAt_succ htake htree] at h
      cases hnode : resolution.node? index placed.token with
      | none =>
          rw [hnode] at h
          cases h
      | some node =>
          rw [hnode] at h
          cases node with
          | unary op operand =>
              obtain ⟨⟨operandTree, after⟩, hoperand, hresult⟩ := bind_eq_ok_iff.1 h
              cases hresult
              exact .unary htake htree hnode (ih _ _ _ hoperand)
          | binary op left right =>
              obtain ⟨⟨leftTree, middle⟩, hleft, hmore⟩ := bind_eq_ok_iff.1 h
              obtain ⟨⟨rightTree, after⟩, hright, hresult⟩ := bind_eq_ok_iff.1 hmore
              cases hresult
              exact .binary htake htree hnode (ih _ _ _ hleft) (ih _ _ _ hright)

theorem assembleAt_eq_ok_iff {room level index : Nat} {slots rest : Slots} {tree : Expr} :
    resolution.assembleAt room level index slots = .ok (tree, rest) ↔
      resolution.Assembles room index slots tree rest := by
  constructor
  · exact assembles_of_assembleAt
  · intro h
    induction h generalizing level with
    | leaf htake htree hroom => rw [assembleAt_leaf htake htree, if_pos hroom]
    | unary htake htree hnode hoperand ih =>
        rw [assembleAt_succ htake htree, hnode]
        simp only [ih]
        rfl
    | binary htake htree hnode hleft hright ihleft ihright =>
        rw [assembleAt_succ htake htree, hnode]
        simp only [ihleft]
        change (resolution.assembleAt _ _ _ _ >>= _) = _
        rw [ihright]
        rfl

theorem Assembles.mono {room more index : Nat} {slots rest : Slots} {tree : Expr}
    (h : resolution.Assembles room index slots tree rest) (hle : room ≤ more) :
    resolution.Assembles more index slots tree rest := by
  induction h generalizing more with
  | leaf htake htree hroom => exact .leaf htake htree (Nat.le_trans hroom hle)
  | unary htake htree hnode hoperand ih =>
      obtain ⟨more, rfl⟩ : ∃ below, more = below + 1 := ⟨more - 1, by omega⟩
      exact .unary htake htree hnode (ih (Nat.le_of_succ_le_succ hle))
  | binary htake htree hnode hleft hright ihleft ihright =>
      obtain ⟨more, rfl⟩ : ∃ below, more = below + 1 := ⟨more - 1, by omega⟩
      exact .binary htake htree hnode (ihleft (Nat.le_of_succ_le_succ hle))
        (ihright (Nat.le_of_succ_le_succ hle))

theorem Assembles.levels_le {room index : Nat} {slots rest : Slots} {tree : Expr}
    (h : resolution.Assembles room index slots tree rest) : tree.levels ≤ room := by
  induction h with
  | leaf _ _ hroom => rwa [← Expr.height_eq_levels]
  | unary _ _ _ _ ih => exact Nat.succ_le_succ ih
  | binary _ _ _ _ _ ihleft ihright => exact Nat.succ_le_succ (Nat.max_le.2 ⟨ihleft, ihright⟩)

theorem assemble_eq_ok_iff {maxHeight : Nat} {tree : Expr} :
    resolution.assemble maxHeight tokens = .ok tree ↔
      ∃ rest, resolution.Assembles maxHeight resolution.root (Slots.ofTokens tokens) tree rest := by
  rw [assemble, bind_eq_ok_iff]
  constructor
  · rintro ⟨⟨found, rest⟩, hassembled, hresult⟩
    cases hresult
    exact ⟨rest, assembleAt_eq_ok_iff.1 hassembled⟩
  · rintro ⟨rest, hassembles⟩
    exact ⟨(tree, rest), assembleAt_eq_ok_iff.2 hassembles, rfl⟩

/-- More room does not change what is assembled. -/
theorem assemble_mono {maxHeight more : Nat} {tree : Expr}
    (h : resolution.assemble maxHeight tokens = .ok tree) (hle : maxHeight ≤ more) :
    resolution.assemble more tokens = .ok tree := by
  obtain ⟨rest, hassembles⟩ := assemble_eq_ok_iff.1 h
  exact assemble_eq_ok_iff.2 ⟨rest, hassembles.mono hle⟩

/-- Nothing higher than allowed is assembled, even from nonsense. -/
theorem levels_le_of_assemble {maxHeight : Nat} {tree : Expr}
    (h : resolution.assemble maxHeight tokens = .ok tree) : tree.levels ≤ maxHeight := by
  obtain ⟨rest, hassembles⟩ := assemble_eq_ok_iff.1 h
  exact hassembles.levels_le

theorem node?_eq_unary_iff {index operand : Nat} {token : Token} {op : UnaryOperator} :
    resolution.node? index token = some (.unary op operand) ↔
      (∃ priority, resolution.operation? index = some ⟨false, priority, [operand]⟩) ∧
        token.unary? = some op := by
  constructor
  · intro h
    obtain ⟨⟨isBinary, priority, operands⟩, hoperation, hnode⟩ := Option.bind_eq_some_iff.1 h
    unfold Operation.node? at hnode
    split at hnode
    · rename_i hbinary hoperands
      obtain ⟨found, hfound, heq⟩ := Option.map_eq_some_iff.1 hnode
      cases heq
      obtain rfl : isBinary = false := hbinary
      obtain rfl : operands = [operand] := hoperands
      exact ⟨⟨priority, hoperation⟩, hfound⟩
    · obtain ⟨found, _, heq⟩ := Option.map_eq_some_iff.1 hnode
      cases heq
    · cases hnode
  · rintro ⟨⟨priority, hoperation⟩, hop⟩
    rw [node?, hoperation]
    simp [Operation.node?, hop]

theorem node?_eq_binary_iff {index left right : Nat} {token : Token} {op : BinaryOperator} :
    resolution.node? index token = some (.binary op left right) ↔
      (∃ priority, resolution.operation? index = some ⟨true, priority, [left, right]⟩) ∧
        token.binary? = some op := by
  constructor
  · intro h
    obtain ⟨⟨isBinary, priority, operands⟩, hoperation, hnode⟩ := Option.bind_eq_some_iff.1 h
    unfold Operation.node? at hnode
    split at hnode
    · obtain ⟨found, _, heq⟩ := Option.map_eq_some_iff.1 hnode
      cases heq
    · rename_i hbinary hoperands
      obtain ⟨found, hfound, heq⟩ := Option.map_eq_some_iff.1 hnode
      cases heq
      obtain rfl : isBinary = true := hbinary
      obtain rfl : operands = [left, right] := hoperands
      exact ⟨⟨priority, hoperation⟩, hfound⟩
    · cases hnode
  · rintro ⟨⟨priority, hoperation⟩, hop⟩
    rw [node?, hoperation]
    simp [Operation.node?, hop]

end Resolution

namespace Located

/-- Every operator has the operands that its operation gives it. -/
def Follows (resolution : Resolution) : Located → Prop
  | leaf _ _ => True
  | sign index _ operand =>
      (∃ priority, resolution.operation? index = some ⟨false, priority, [operand.root]⟩) ∧
        operand.Follows resolution
  | operator index _ left right =>
      (∃ priority, resolution.operation? index = some ⟨true, priority, [left.root, right.root]⟩) ∧
        left.Follows resolution ∧ right.Follows resolution

theorem Recorded.follows {claims : Claims} {resolution : Resolution}
    (hclaims : resolution.operations = claims.operations) {tree : Located}
    (h : tree.Recorded claims) : tree.Follows resolution := by
  have hoperation : ∀ index, resolution.operation? index = claims.operation? index := by
    intro index
    rw [Resolution.operation?, hclaims]
    rfl
  induction tree with
  | leaf index tree => trivial
  | sign index op operand ih =>
      obtain ⟨hrecorded, _, hoperand⟩ := h
      exact ⟨⟨_, (hoperation index).trans hrecorded⟩, ih hoperand⟩
  | operator index op left right ihleft ihright =>
      obtain ⟨hrecorded, _, _, hleft, hright⟩ := h
      exact ⟨⟨_, (hoperation index).trans hrecorded⟩, ihleft hleft, ihright hright⟩

/-- A tree over different tokens is assembled from slots that hold them, and nothing else is
taken. -/
theorem Follows.assembles {resolution : Resolution} {tokens : List Placed} {tree : Located}
    (h : tree.Follows resolution) (hmatches : tree.Matches tokens) (hnodup : tree.inorder.Nodup)
    {slots : Slots} (hheld : ∀ index ∈ tree.inorder, slots[index]? = tokens[index]?.map some) :
    ∃ rest : Slots, resolution.Assembles tree.expr.levels tree.root slots tree.expr rest ∧
      ∀ index ∉ tree.inorder, rest[index]? = slots[index]? := by
  induction tree generalizing slots with
  | leaf index tree =>
      obtain ⟨placed, htoken, htree⟩ := hmatches
      have htake := Slots.take?_of_held (hheld index List.mem_cons_self) htoken
      have hheight : tree.height ≤ tree.levels := Nat.le_of_eq tree.height_eq_levels
      refine ⟨_, .leaf htake htree hheight, fun other hother => slots.getElem?_take_ne ?_⟩
      exact fun heq => hother (List.mem_singleton.2 heq)
  | sign index op operand ih =>
      obtain ⟨hoperation, hbelow⟩ := h
      obtain ⟨⟨placed, htoken, hop⟩, hoperand⟩ := hmatches
      obtain ⟨hfresh, hnodupBelow⟩ := List.nodup_cons.1 hnodup
      have htake := Slots.take?_of_held (hheld index List.mem_cons_self) htoken
      have hheldBelow : ∀ other ∈ operand.inorder,
          (slots.setIfInBounds index none)[other]? = tokens[other]?.map some := by
        intro other hother
        have hne : other ≠ index := fun heq => hfresh (by rwa [← heq])
        rw [slots.getElem?_take_ne hne]
        exact hheld other (List.mem_cons_of_mem _ hother)
      obtain ⟨rest, hassembles, hrest⟩ := ih hbelow hoperand hnodupBelow hheldBelow
      have hnode := Resolution.node?_eq_unary_iff.2 ⟨hoperation, hop⟩
      refine ⟨rest, .unary htake (Token.tree?_of_unary? hop) hnode hassembles, ?_⟩
      intro other hother
      rw [Located.inorder, List.mem_cons, not_or] at hother
      rw [hrest other hother.2, slots.getElem?_take_ne hother.1]
  | operator index op left right ihleft ihright =>
      obtain ⟨hoperation, hleftFollows, hrightFollows⟩ := h
      obtain ⟨⟨placed, htoken, hop⟩, hleftMatches, hrightMatches⟩ := hmatches
      obtain ⟨hfresh, hnodupBelow⟩ := List.nodup_cons.1 (List.perm_middle.nodup_iff.1 hnodup)
      obtain ⟨hnodupLeft, hnodupRight, hdisjoint⟩ := List.nodup_append.1 hnodupBelow
      have hheldTop := hheld index (List.mem_append_right _ List.mem_cons_self)
      have htake := Slots.take?_of_held hheldTop htoken
      have hheldBelow : ∀ other ∈ left.inorder ++ right.inorder,
          (slots.setIfInBounds index none)[other]? = tokens[other]?.map some := by
        intro other hother
        have hne : other ≠ index := fun heq => hfresh (by rwa [← heq])
        rw [slots.getElem?_take_ne hne]
        exact hheld other (List.perm_middle.mem_iff.2 (List.mem_cons_of_mem _ hother))
      obtain ⟨middle, hleft, hmiddle⟩ := ihleft hleftFollows hleftMatches hnodupLeft
        fun other hother => hheldBelow other (List.mem_append_left _ hother)
      have hheldRight : ∀ other ∈ right.inorder, middle[other]? = tokens[other]?.map some := by
        intro other hother
        rw [hmiddle other fun htaken => hdisjoint other htaken other hother rfl]
        exact hheldBelow other (List.mem_append_right _ hother)
      obtain ⟨rest, hright, hrest⟩ := ihright hrightFollows hrightMatches hnodupRight hheldRight
      have hnode := Resolution.node?_eq_binary_iff.2 ⟨hoperation, hop⟩
      refine ⟨rest, .binary htake (Token.tree?_of_binary? hop) hnode
        (hleft.mono (Nat.le_max_left _ _)) (hright.mono (Nat.le_max_right _ _)), ?_⟩
      intro other hother
      rw [Located.inorder, List.perm_middle.mem_iff, List.mem_cons, List.mem_append, not_or,
        not_or] at hother
      obtain ⟨hne, hnotLeft, hnotRight⟩ := hother
      rw [hrest other hnotRight, hmiddle other hnotLeft, slots.getElem?_take_ne hne]

theorem Follows.assemble {resolution : Resolution} {tokens : List Placed} {tree : Located}
    (h : tree.Follows resolution) (hroot : tree.root = resolution.root)
    (hmatches : tree.Matches tokens) (hnodup : tree.inorder.Nodup) :
    resolution.assemble tree.expr.levels tokens = .ok tree.expr := by
  obtain ⟨rest, hassembles, _⟩ :=
    h.assembles hmatches hnodup fun index _ => Slots.getElem?_ofTokens tokens index
  rw [hroot] at hassembles
  exact Resolution.assemble_eq_ok_iff.2 ⟨rest, hassembles⟩

end Located

theorem Located.Resolves.assemble {tree : Located} {tokens : List Placed}
    {resolution : Resolution} (h : tree.Resolves tokens resolution) :
    resolution.assemble tree.expr.levels tokens = .ok tree.expr := by
  obtain ⟨claims, hclaims, hrecorded⟩ := h.recorded
  have hnodup : tree.inorder.Nodup := by
    rw [h.spans.inorder_eq]
    exact List.nodup_range'
  exact (hrecorded.follows hclaims).assemble h.root.symm h.matched hnodup

theorem Located.Resolves.eq_of_assemble {tree : Located} {tokens : List Placed}
    {resolution : Resolution} (h : tree.Resolves tokens resolution) {maxHeight : Nat}
    {assembled : Expr} (hassemble : resolution.assemble maxHeight tokens = .ok assembled) :
    assembled = tree.expr := by
  have hmore := Resolution.assemble_mono hassemble (Nat.le_max_left maxHeight tree.expr.levels)
  have hown := Resolution.assemble_mono h.assemble (Nat.le_max_right maxHeight tree.expr.levels)
  exact Except.ok.inj (hmore.symm.trans hown)

/-- A list of tokens becomes a tree exactly if it is the row of a chain, the tree is
the ordered arrangement of that chain, and it is no higher than allowed. -/
theorem resolve_assemble_eq_ok_iff {tokens : List Placed} {maxHeight : Nat} {tree : Expr} :
    (resolve tokens >>= fun resolution => resolution.assemble maxHeight tokens) = .ok tree ↔
      ∃ arrangement : Arrangement, Row arrangement.chain tokens ∧ arrangement.Ordered ∧
        arrangement.expr = tree ∧ tree.levels ≤ maxHeight := by
  rw [bind_eq_ok_iff]
  constructor
  · rintro ⟨resolution, hresolve, hassemble⟩
    have hlevels := Resolution.levels_le_of_assemble hassemble
    obtain ⟨located, hresolves, hrow⟩ := exists_resolves hresolve
    refine ⟨located.arrangement, hrow, hresolves.ordered, ?_, hlevels⟩
    rw [located.expr_arrangement, hresolves.eq_of_assemble hassemble]
  · rintro ⟨arrangement, hrow, hordered, rfl, hlevels⟩
    obtain ⟨resolution, located, hresolve, hresolves, hchain⟩ := hrow.resolve
    have heq := hresolves.ordered.eq_of_chain_eq hordered hchain
    have hexpr : located.expr = arrangement.expr := by rw [← located.expr_arrangement, heq]
    refine ⟨resolution, hresolve, ?_⟩
    rw [← hexpr] at hlevels ⊢
    exact Resolution.assemble_mono hresolves.assemble hlevels

end Formula
