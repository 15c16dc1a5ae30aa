/-
Which tokens resolve.  A row is what stands between parentheses once nothing is left
out: signed values with binary operators between them.  Rows are exactly what
resolves, and the operands that the operators of a row claim form the ordered
arrangement of its chain.
-/
import Formula.Proofs.Outcome
import Formula.Proofs.TokenClass
import Formula.Proofs.Precedence.Scan

namespace Formula

/-- A value behind any number of signs. -/
inductive Signed : Expr → List Placed → Prop
  | value {placed : Placed} {tree : Expr} (htree : placed.token.tree? = some tree) :
      Signed tree [placed]
  | sign {placed : Placed} {op : UnaryOperator} {tree : Expr} {tokens : List Placed}
      (hop : placed.token.unary? = some op) (hoperand : Signed tree tokens) :
      Signed (.unary op tree) (placed :: tokens)

/-- Signed values with binary operators between them. -/
inductive Row : Chain → List Placed → Prop
  | single {tree : Expr} {tokens : List Placed} (hoperand : Signed tree tokens) :
      Row (.single tree) tokens
  | push {chain : Chain} {placed : Placed} {op : BinaryOperator} {tree : Expr}
      {left right : List Placed} (hrow : Row chain left)
      (hop : placed.token.binary? = some op) (hoperand : Signed tree right) :
      Row (chain.push op tree) (left ++ placed :: right)

theorem Signed.ne_nil {tree : Expr} {tokens : List Placed} (h : Signed tree tokens) :
    tokens ≠ [] := by
  cases h <;> exact List.cons_ne_nil _ _

namespace Claims

theorem accept_value {placed : Placed} (h : placed.isValue = true) (claims : Claims)
    (index : Nat) (afterValue isLast : Bool) :
    claims.accept index afterValue isLast placed = .ok claims := by
  obtain ⟨token, position⟩ := placed
  cases token <;> first | rfl | cases h

theorem accept_sign {placed : Placed} {op : UnaryOperator} (h : placed.token.unary? = some op)
    (claims : Claims) (index : Nat) :
    claims.accept index false false placed =
      .ok (claims.claim index UnaryOperator.priority false) := by
  obtain ⟨token, position⟩ := placed
  cases token <;> first | rfl | cases h

theorem accept_operator {placed : Placed} {op : BinaryOperator}
    (h : placed.token.binary? = some op) (claims : Claims) (index : Nat) :
    claims.accept index true false placed = .ok (claims.claim index op.priority true) := by
  obtain ⟨token, position⟩ := placed
  cases token <;> first | (cases h; rfl) | cases h

/-- What the scan takes in: a value, a sign that follows none, or an operator that
follows one. -/
theorem accept_eq_ok {claims next : Claims} {index : Nat} {afterValue isLast : Bool}
    {placed : Placed} (h : claims.accept index afterValue isLast placed = .ok next) :
    (∃ tree, placed.token.tree? = some tree ∧ next = claims) ∨
      (isLast = false ∧ afterValue = false ∧ ∃ op, placed.token.unary? = some op ∧
        next = claims.claim index UnaryOperator.priority false) ∨
      (isLast = false ∧ afterValue = true ∧ ∃ op, placed.token.binary? = some op ∧
        next = claims.claim index op.priority true) := by
  obtain ⟨token, position⟩ := placed
  cases token <;> cases afterValue <;> cases isLast <;> cases h <;>
    simp [Token.tree?, Token.unary?, Token.binary?, Token.priority]

theorem acceptAll_cons (claims : Claims) (index : Nat) (afterValue : Bool) (placed : Placed)
    (rest : List Placed) :
    claims.acceptAll index afterValue (placed :: rest) =
      (claims.accept index afterValue rest.isEmpty placed >>= fun next =>
        next.acceptAll (index + 1) placed.isValue rest) := rfl

end Claims

/-- The scan stands behind a value. -/
structure Holding (tokens : List Placed) (claims : Claims) (first : Nat) (spine : Spine)
    (last : Nat) (tree : Expr) : Prop extends Standing tokens claims first spine last where
  value : (Located.leaf last tree).Matches tokens

theorem getElem?_of_drop_eq_cons {tokens rest : List Placed} {index : Nat} {placed : Placed}
    (h : tokens.drop index = placed :: rest) : tokens[index]? = some placed := by
  rw [← List.head?_drop, h]
  rfl

theorem drop_succ_of_drop_eq_cons {tokens rest : List Placed} {index : Nat} {placed : Placed}
    (h : tokens.drop index = placed :: rest) : tokens.drop (index + 1) = rest := by
  rw [← List.tail_drop, h]
  rfl

/-- Scanning a signed value puts its signs on the spine. -/
theorem Signed.acceptAll {tree : Expr} {operand : List Placed} (h : Signed tree operand)
    {tokens rest : List Placed} {claims : Claims} {first hole : Nat} {spine : Spine}
    (hstanding : Standing tokens claims first spine hole)
    (hdrop : tokens.drop hole = operand ++ rest) :
    ∃ next outer last value closed,
      claims.acceptAll hole false (operand ++ rest) =
          next.acceptAll (hole + operand.length) true rest ∧
        last + 1 = hole + operand.length ∧ Holding tokens next first outer last value ∧
        Spine.plug (.leaf last value) outer = Spine.plug closed spine ∧
        closed.arrangement = .operand tree := by
  induction h generalizing claims hole spine with
  | @value placed tree htree =>
      have htoken := getElem?_of_drop_eq_cons hdrop
      have hvalue : placed.isValue = true := Token.isValue_of_tree? htree
      refine ⟨claims, spine, hole, tree, .leaf hole tree, ?_, rfl,
        ⟨hstanding, placed, htoken, htree⟩, rfl, rfl⟩
      rw [List.singleton_append, Claims.acceptAll_cons, Claims.accept_value hvalue, hvalue]
      rfl
  | @sign placed op tree operand hop hoperand ih =>
      have htoken := getElem?_of_drop_eq_cons hdrop
      have hrest := drop_succ_of_drop_eq_cons hdrop
      have hmore : (operand ++ rest).isEmpty = false := by
        simp [hoperand.ne_nil]
      obtain ⟨next, outer, last, value, closed, hrun, hlast, hholding, hplug, hclosed⟩ :=
        ih (hstanding.sign htoken hop) hrest
      refine ⟨next, outer, last, value, .sign hole op closed, ?_, ?_, hholding, hplug, ?_⟩
      · have hisValue : placed.isValue = false := Token.isValue_of_unary? hop
        have hlength : hole + (placed :: operand).length = hole + 1 + operand.length := by
          simp only [List.length_cons]
          omega
        rw [List.cons_append, Claims.acceptAll_cons, hmore, Claims.accept_sign hop, hisValue,
          hlength, ← hrun]
        rfl
      · simp only [List.length_cons]
        omega
      · have hexpr : closed.expr = tree := by
          rw [← closed.expr_arrangement, hclosed]
          rfl
        change Arrangement.operand (.unary op closed.expr) = _
        rw [hexpr]

/-- Scanning a row arranges its chain. -/
theorem Row.acceptAll {chain : Chain} {left : List Placed} (h : Row chain left)
    {tokens rest : List Placed} (hdrop : tokens = left ++ rest) :
    ∃ next spine last value,
      Claims.acceptAll {} 0 false (left ++ rest) = next.acceptAll left.length true rest ∧
        last + 1 = left.length ∧ Holding tokens next 0 spine last value ∧
        (Spine.plug (.leaf last value) spine).arrangement.chain = chain := by
  induction h generalizing rest with
  | @single tree operand hoperand =>
      obtain ⟨next, spine, last, value, closed, hrun, hlast, hholding, hplug, hclosed⟩ :=
        hoperand.acceptAll (Standing.start tokens) hdrop
      rw [Nat.zero_add] at hrun hlast
      refine ⟨next, spine, last, value, hrun, hlast, hholding, ?_⟩
      rw [hplug, Spine.plug, hclosed]
      rfl
  | @push chain placed op tree left right hrow hop hoperand ih =>
      have hmore : tokens = left ++ (placed :: right ++ rest) := by simpa using hdrop
      obtain ⟨middle, inner, last, value, hrun, hlast, hholding, hchain⟩ := ih hmore
      have hdropLeft : tokens.drop (last + 1) = placed :: (right ++ rest) := by
        rw [hdrop, hlast]
        simp
      have htoken := getElem?_of_drop_eq_cons hdropLeft
      have hstanding := hholding.toStanding.operator hholding.value htoken hop
      obtain ⟨next, spine, newLast, newValue, closed, hrun', hlast', hholding', hplug, hclosed⟩ :=
        hoperand.acceptAll hstanding (drop_succ_of_drop_eq_cons hdropLeft)
      refine ⟨next, spine, newLast, newValue, ?_, ?_, hholding', ?_⟩
      · have hmore : (right ++ rest).isEmpty = false := by
          simp [hoperand.ne_nil]
        have hisValue : placed.isValue = false := Token.isValue_of_binary? hop
        have hlength : (left ++ placed :: right).length = last + 2 + right.length := by
          simp only [List.length_append, List.length_cons]
          omega
        rw [List.append_assoc, List.cons_append, ← List.cons_append, hrun, List.cons_append,
          Claims.acceptAll_cons, hmore, Claims.accept_operator hop, hisValue, hlength, ← hrun',
          ← hlast]
        rfl
      · simp only [List.length_append, List.length_cons]
        omega
      · have hfits := (hholding.fits value).reduce op.priority
        have hclosedChain : ((Frame.operator (last + 1) op
            (Spine.reduce op.priority (.leaf last value) inner).2).plug closed).arrangement.chain =
              (Spine.reduce op.priority (.leaf last value) inner).2.arrangement.chain.push op
                tree := by
          change Chain.join _ op closed.arrangement.chain = _
          rw [hclosed]
          rfl
        rw [hplug, Spine.plug, Spine.chain_plug_push hfits.ordered
          (Nat.le_of_lt op.priority_lt_unary) (Spine.priority_lt_of_mem_head?_reduce _ _ _)
          hclosedChain, Spine.plug_reduce, hchain]

/-- A scan that ends holds a value at the end, and over a single tree it has read a
row.  In front of an operand, what is read must make every operand a row. -/
theorem acceptAll_sound {tokens : List Placed} {final : Claims} (rest : List Placed) :
    (∀ {claims first spine hole} {left : List Placed}, Standing tokens claims first spine hole →
      tokens = left ++ rest → left.length = hole → rest ≠ [] →
      (first = 0 → ∀ tree right, Signed tree right → ∃ chain, Row chain (left ++ right)) →
      claims.acceptAll hole false rest = .ok final →
      ∃ first spine last tree, Holding tokens final first spine last tree ∧
        last + 1 = tokens.length ∧ (first = 0 → ∃ chain, Row chain tokens)) ∧
    (∀ {claims first spine last tree} {left : List Placed},
      Holding tokens claims first spine last tree → tokens = left ++ rest →
      left.length = last + 1 → (first = 0 → ∃ chain, Row chain left) →
      claims.acceptAll (last + 1) true rest = .ok final →
      ∃ first spine last tree, Holding tokens final first spine last tree ∧
        last + 1 = tokens.length ∧ (first = 0 → ∃ chain, Row chain tokens)) := by
  induction rest with
  | nil =>
      constructor
      · intro claims first spine hole left _ _ _ hne
        exact absurd rfl hne
      · intro claims first spine last tree left hholding htokens hlength hrow hrun
        obtain rfl : claims = final := by simpa [Claims.acceptAll, pure, Except.pure] using hrun
        obtain rfl : tokens = left := by simpa using htokens
        exact ⟨first, spine, last, tree, hholding, hlength.symm, hrow⟩
  | cons placed rest ih =>
      constructor
      · intro claims first spine hole left hstanding htokens hlength _ hoperand hrun
        have htoken : tokens[hole]? = some placed := by simp [htokens, ← hlength]
        have htokens' : tokens = (left ++ [placed]) ++ rest := by simp [htokens]
        rw [Claims.acceptAll_cons] at hrun
        obtain ⟨next, haccept, hrest⟩ := bind_eq_ok_iff.1 hrun
        rcases Claims.accept_eq_ok haccept with ⟨tree, htree, rfl⟩ | ⟨hlast, _, op, hop, rfl⟩ |
          ⟨_, hafter, _⟩
        · have hvalue : placed.isValue = true := Token.isValue_of_tree? htree
          rw [hvalue] at hrest
          exact ih.2 ⟨hstanding, placed, htoken, htree⟩ htokens' (by simp [hlength])
            (fun hfirst => hoperand hfirst tree [placed] (.value htree)) hrest
        · have hvalue : placed.isValue = false := Token.isValue_of_unary? hop
          rw [hvalue] at hrest
          refine ih.1 (hstanding.sign htoken hop) htokens' (by simp [hlength])
            (by simpa using hlast) (fun hfirst tree right hright => ?_) hrest
          simpa using hoperand hfirst _ _ (.sign hop hright)
        · cases hafter
      · intro claims first spine last tree left hholding htokens hlength hrow hrun
        have htoken : tokens[last + 1]? = some placed := by simp [htokens, ← hlength]
        have htokens' : tokens = (left ++ [placed]) ++ rest := by simp [htokens]
        rw [Claims.acceptAll_cons] at hrun
        obtain ⟨next, haccept, hrest⟩ := bind_eq_ok_iff.1 hrun
        rcases Claims.accept_eq_ok haccept with ⟨value, htree, rfl⟩ | ⟨_, hafter, _⟩ |
          ⟨hlast, _, op, hop, rfl⟩
        · have hvalue : placed.isValue = true := Token.isValue_of_tree? htree
          rw [hvalue] at hrest
          exact ih.2 ⟨hholding.toStanding.restart tree, placed, htoken, htree⟩ htokens'
            (by simp [hlength]) (fun hfirst => absurd hfirst (Nat.succ_ne_zero last)) hrest
        · cases hafter
        · have hvalue : placed.isValue = false := Token.isValue_of_binary? hop
          rw [hvalue] at hrest
          refine ih.1 (hholding.toStanding.operator hholding.value htoken hop) htokens'
            (by simp [hlength]) (by simpa using hlast) (fun hfirst tree right hright => ?_) hrest
          obtain ⟨chain, hchain⟩ := hrow hfirst
          exact ⟨_, by simpa using hchain.push hop hright⟩

/-- Everything but the top of a tree has an owner. -/
theorem Located.Recorded.owner?_isSome {claims : Claims} {tree : Located} {first stop : Nat}
    (h : tree.Recorded claims) (hspans : tree.Spans first stop) {index : Nat}
    (hlow : first ≤ index) (hhigh : index < stop) (hne : index ≠ tree.root) :
    (claims.owner? index).isSome = true := by
  induction tree generalizing first stop with
  | leaf at_ tree =>
      obtain ⟨rfl, rfl⟩ := hspans
      exact absurd (show index = first by omega) hne
  | sign at_ op operand ih =>
      obtain ⟨rfl, hspan⟩ := hspans
      obtain ⟨_, howned, hoperand⟩ := h
      have hbelow : first + 1 ≤ index := Nat.lt_of_le_of_ne hlow (Ne.symm hne)
      by_cases htop : index = operand.root
      · rw [htop, howned]
        rfl
      · exact ih hoperand hspan hbelow hhigh htop
  | operator at_ op left right ihleft ihright =>
      obtain ⟨hleftSpan, hrightSpan⟩ := hspans
      obtain ⟨_, hleftOwned, hrightOwned, hleft, hright⟩ := h
      rcases Nat.lt_or_gt_of_ne hne with hlt | hgt
      · by_cases htop : index = left.root
        · rw [htop, hleftOwned]
          rfl
        · exact ihleft hleft hleftSpan hlow hlt htop
      · by_cases htop : index = right.root
        · rw [htop, hrightOwned]
          rfl
        · exact ihright hright hrightSpan hgt hhigh htop

theorem Claims.mem_unclaimed {claims : Claims} {count index : Nat} :
    index ∈ claims.unclaimed count ↔ index < count ∧ claims.owner? index = none := by
  simp [unclaimed]

theorem Claims.unclaimed_eq_singleton {claims : Claims} {count root : Nat}
    (h : ∀ index, index < count ∧ claims.owner? index = none ↔ index = root) :
    claims.unclaimed count = [root] := by
  have hnodup : (claims.unclaimed count).Nodup := List.nodup_range.filter _
  have hmem : ∀ index, index ∈ claims.unclaimed count ↔ index = root := fun index =>
    Claims.mem_unclaimed.trans (h index)
  refine List.perm_singleton.1 ((List.perm_ext_iff_of_nodup hnodup (by simp)).2 ?_)
  simpa using hmem

/-- The tree that a resolution stands for. -/
structure Located.Resolves (tree : Located) (tokens : List Placed) (resolution : Resolution) :
    Prop where
  root : resolution.root = tree.root
  spans : tree.Spans 0 tokens.length
  matched : tree.Matches tokens
  ordered : tree.arrangement.Ordered
  signsBind : tree.SignsBind
  recorded : ∃ claims : Claims, resolution.operations = claims.operations ∧ tree.Recorded claims
  /-- Nothing but an operator has an operation. -/
  operators : ∀ index operation, resolution.operation? index = some operation →
    ∃ placed, tokens[index]? = some placed ∧ placed.token.isOperator = true

theorem Row.resolve {chain : Chain} {tokens : List Placed} (h : Row chain tokens) :
    ∃ (resolution : Resolution) (tree : Located), Formula.resolve tokens = .ok resolution ∧
      tree.Resolves tokens resolution ∧ tree.arrangement.chain = chain := by
  obtain ⟨claims, spine, last, value, hrun, hlast, hholding, hchain⟩ :=
    h.acceptAll (List.append_nil tokens).symm
  have hleaf : (Located.leaf last value).Spans last (last + 1) := ⟨rfl, rfl⟩
  have hleafRecorded : (Located.leaf last value).Recorded claims := trivial
  have hspans := hholding.spans.plug hleaf
  obtain ⟨hrecorded, hroot⟩ := Spine.Recorded.plug hholding.recorded hleafRecorded
  rw [hlast] at hspans
  have hunclaimed : claims.unclaimed tokens.length =
      [(Spine.plug (.leaf last value) spine).root] := by
    refine Claims.unclaimed_eq_singleton fun index => ⟨fun ⟨hlt, hnone⟩ => ?_, ?_⟩
    · refine Decidable.byContradiction fun hne => ?_
      have := hrecorded.owner?_isSome hspans (Nat.zero_le index) hlt hne
      simp [hnone] at this
    · rintro rfl
      exact ⟨hspans.root_bounds.2, hroot⟩
  refine ⟨⟨_, claims.operations⟩, Spine.plug (.leaf last value) spine, ?_,
    ⟨rfl, hspans, hholding.matched.plug hholding.value, (hholding.fits value).ordered_plug,
      hholding.signsBind.plug (hholding.fits value) trivial, ⟨claims, rfl, hrecorded⟩,
      hholding.operators⟩, hchain⟩
  rw [List.append_nil] at hrun
  refine bind_eq_ok_iff.2 ⟨claims, hrun, ?_⟩
  rw [hunclaimed]
  rfl

theorem row_of_resolve {tokens : List Placed} {resolution : Resolution}
    (h : resolve tokens = .ok resolution) : ∃ chain, Row chain tokens := by
  obtain ⟨claims, hrun, hroot⟩ := bind_eq_ok_iff.1 h
  have hne : tokens ≠ [] := by
    rintro rfl
    obtain rfl : ({} : Claims) = claims := by simpa [Claims.acceptAll, pure, Except.pure] using hrun
    cases hroot
  obtain ⟨first, spine, last, tree, hholding, hlast, hrow⟩ :=
    (acceptAll_sound tokens).1 (Standing.start tokens) (List.nil_append tokens).symm rfl hne
      (fun _ tree right hright => ⟨_, .single hright⟩) hrun
  refine hrow (Nat.eq_zero_of_not_pos fun hpos => ?_)
  have hleaf : (Located.leaf last tree).Spans last (last + 1) := ⟨rfl, rfl⟩
  have hleafRecorded : (Located.leaf last tree).Recorded claims := trivial
  have hbounds := (hholding.spans.plug hleaf).root_bounds
  have htop := Spine.Recorded.plug hholding.recorded hleafRecorded
  obtain ⟨index, hlt, hnone⟩ := hholding.ended hpos
  have hfirst : index ∈ claims.unclaimed tokens.length :=
    Claims.mem_unclaimed.2 ⟨by omega, hnone⟩
  have hsecond : (Spine.plug (.leaf last tree) spine).root ∈ claims.unclaimed tokens.length :=
    Claims.mem_unclaimed.2 ⟨by omega, htop.2⟩
  -- two tops are left over, so the scan was refused
  match hunclaimed : claims.unclaimed tokens.length with
  | [] => simp [hunclaimed] at hfirst
  | [root] =>
      rw [hunclaimed] at hfirst hsecond
      have := List.mem_singleton.1 hfirst
      have := List.mem_singleton.1 hsecond
      omega
  | root :: extra :: rest =>
      rw [hunclaimed] at hroot
      cases hroot

/-- What tokens are resolved to stands for a tree over the chain of their row. -/
theorem exists_resolves {tokens : List Placed} {resolution : Resolution}
    (h : resolve tokens = .ok resolution) :
    ∃ tree : Located, tree.Resolves tokens resolution ∧ Row tree.arrangement.chain tokens := by
  obtain ⟨chain, hrow⟩ := row_of_resolve h
  obtain ⟨found, tree, hfound, hresolves, hchain⟩ := hrow.resolve
  obtain rfl := Except.ok.inj (h.symm.trans hfound)
  exact ⟨tree, hresolves, hchain ▸ hrow⟩

end Formula
