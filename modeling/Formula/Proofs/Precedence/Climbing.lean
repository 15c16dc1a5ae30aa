/-
Precedence climbing.  Tokens are read as operands with operators between them, and the
operators are taken in from left to right: the right operand of an operator takes all that
follows and binds more tightly, and what has been built is the left operand of the next one.
An ordered tree is what climbing makes of its own operands and operators.
-/
import Formula.Proofs.Precedence.Row

namespace Formula

/-- An operator and the operand behind it. -/
structure Link where
  index : Nat
  op : BinaryOperator
  operand : Located

namespace Located

/-- Takes in the operators that follow an operand. -/
def climb (left : Located) : List Link → Located
  | [] => left
  | link :: rest =>
      let tighter (next : Link) : Bool := link.op.priority < next.op.priority
      let right := link.operand.climb (rest.takeWhile tighter)
      (operator link.index link.op left right).climb (rest.dropWhile tighter)
termination_by links => links.length
decreasing_by
  all_goals simp only [List.length_cons]
  · exact Nat.lt_succ_of_le (List.takeWhile_sublist _).length_le
  · exact Nat.lt_succ_of_le (List.dropWhile_sublist _).length_le

mutual

/-- The first operand of the tokens from an index on, and what follows it. -/
def read? (index : Nat) : List Placed → Option (Located × List Link)
  | [] => none
  | placed :: rest =>
      match placed.token.tree? with
      | some tree => (readLinks? (index + 1) rest).map (leaf index tree, ·)
      | none => do
          let op ← placed.token.unary?
          let (operand, links) ← read? (index + 1) rest
          return (sign index op operand, links)

/-- The operators behind an operand, each with the operand that follows it. -/
def readLinks? (index : Nat) : List Placed → Option (List Link)
  | [] => some []
  | placed :: rest => do
      let op ← placed.token.binary?
      let (operand, links) ← read? (index + 1) rest
      return ⟨index, op, operand⟩ :: links

end

/-- The tree of the tokens by precedence climbing. -/
def climb? (tokens : List Placed) : Option Located :=
  (read? 0 tokens).map fun (first, links) => first.climb links

theorem climb_cons_append {link : Link} {inner outer : List Link} (left : Located)
    (hinner : ∀ next ∈ inner, link.op.priority < next.op.priority)
    (houter : ∀ next ∈ outer.head?, next.op.priority ≤ link.op.priority) :
    left.climb (link :: (inner ++ outer)) =
      (operator link.index link.op left (link.operand.climb inner)).climb outer := by
  have hstays : ∀ next ∈ inner, decide (link.op.priority < next.op.priority) = true :=
    fun next hnext => decide_eq_true (hinner next hnext)
  rw [climb, List.takeWhile_append_of_pos hstays, List.dropWhile_append_of_pos hstays]
  cases outer with
  | nil => simp
  | cons next outer =>
      have hstops : ¬ link.op.priority < next.op.priority := Nat.not_lt.2 (houter next rfl)
      simp [hstops]

/-- The first operand of a tree. -/
def first : Located → Located
  | operator _ _ left _ => left.first
  | operand => operand

/-- The operators of a tree, each with the operand behind it. -/
def links : Located → List Link
  | operator index op left right => left.links ++ ⟨index, op, right.first⟩ :: right.links
  | _ => []

theorem links_of_not_operator {tree : Located} (h : tree.isOperator = false) :
    tree.first = tree ∧ tree.links = [] := by
  cases tree with
  | operator index op left right => cases h
  | leaf | sign => exact ⟨rfl, rfl⟩

theorem chain_arrangement (tree : Located) :
    tree.arrangement.chain = ⟨tree.first.expr, tree.links.map fun link =>
      (link.op, link.operand.expr)⟩ := by
  induction tree with
  | leaf | sign => rfl
  | operator index op left right ihleft ihright =>
      simp only [arrangement, Arrangement.chain, ihleft, ihright]
      simp [Chain.join, first, links]

/-- The operators of an ordered tree bind at least as tightly as its top. -/
theorem le_priority_of_mem_links {tree : Located} {priority : Nat}
    (hordered : tree.arrangement.Ordered) (hbinds : tree.arrangement.BindsAtLeast priority) :
    ∀ link ∈ tree.links, priority ≤ link.op.priority := by
  intro link hlink
  have hle := hordered.le_priority hbinds
  rw [chain_arrangement] at hle
  exact hle _ (List.mem_map_of_mem hlink)

/-- Climbing builds an ordered tree from its own operands and operators, and goes on behind it
if what follows binds no tighter than its top. -/
theorem climb_links {tree : Located} (hordered : tree.arrangement.Ordered) {rest : List Link}
    (hrest : ∀ next ∈ rest.head?, tree.arrangement.BindsAtLeast next.op.priority) :
    tree.first.climb (tree.links ++ rest) = tree.climb rest := by
  induction tree generalizing rest with
  | leaf | sign => rfl
  | operator index op left right ihleft ihright =>
      obtain ⟨hleft, hright, hleftBinds, hrightBinds⟩ := hordered
      have htighter : ∀ next ∈ right.links, op.priority < next.op.priority :=
        le_priority_of_mem_links hright hrightBinds
      have hweaker : ∀ next ∈ rest.head?, next.op.priority ≤ op.priority := hrest
      have hlink : ∀ next ∈ (Link.mk index op right.first :: (right.links ++ rest)).head?,
          left.arrangement.BindsAtLeast next.op.priority := by
        intro next hnext
        obtain rfl := Option.some.inj hnext
        exact hleftBinds
      have hbelow : right.first.climb right.links = right := by
        have hall : right.first.climb (right.links ++ []) = right.climb [] :=
          ihright hright nofun
        rwa [List.append_nil, climb] at hall
      calc (operator index op left right).first.climb
            ((operator index op left right).links ++ rest)
          = left.first.climb
              (left.links ++ ⟨index, op, right.first⟩ :: (right.links ++ rest)) := by
            simp only [first, links, List.append_assoc, List.cons_append]
        _ = left.climb (⟨index, op, right.first⟩ :: (right.links ++ rest)) :=
            ihleft hleft hlink
        _ = (operator index op left (right.first.climb right.links)).climb rest :=
            climb_cons_append left htighter hweaker
        _ = (operator index op left right).climb rest := by rw [hbelow]

theorem read?_value {placed : Placed} {tree : Expr} (h : placed.token.tree? = some tree)
    (index : Nat) (rest : List Placed) :
    read? index (placed :: rest) = (readLinks? (index + 1) rest).map (leaf index tree, ·) := by
  simp only [read?, h]

theorem read?_sign {placed : Placed} {op : UnaryOperator} (h : placed.token.unary? = some op)
    (index : Nat) (rest : List Placed) :
    read? index (placed :: rest) =
      (read? (index + 1) rest).map fun found => (sign index op found.1, found.2) := by
  simp only [read?, Token.tree?_of_unary? h, h]
  cases read? (index + 1) rest <;> rfl

theorem readLinks?_operator {placed : Placed} {op : BinaryOperator}
    (h : placed.token.binary? = some op) (index : Nat) (rest : List Placed) :
    readLinks? index (placed :: rest) =
      (read? (index + 1) rest).map fun found => ⟨index, op, found.1⟩ :: found.2 := by
  simp only [readLinks?, h]
  cases read? (index + 1) rest <;> rfl

theorem drop_eq_cons_of_getElem? {tokens : List Placed} {index : Nat} {placed : Placed}
    (h : tokens[index]? = some placed) : tokens.drop index = placed :: tokens.drop (index + 1) := by
  rw [List.drop_eq_getElem?_toList_append, h]
  rfl

/-- Reading the tokens of a tree yields its own operands and operators, in front of those that
follow. -/
theorem read?_drop {tokens : List Placed} {tree : Located} {start stop : Nat}
    (hspans : tree.Spans start stop) (hmatches : tree.Matches tokens) (hsigns : tree.SignsBind) :
    read? start (tokens.drop start) =
      (readLinks? stop (tokens.drop stop)).map fun more => (tree.first, tree.links ++ more) := by
  induction tree generalizing start stop with
  | leaf index tree =>
      obtain ⟨rfl, rfl⟩ := hspans
      obtain ⟨placed, htoken, htree⟩ := hmatches
      rw [drop_eq_cons_of_getElem? htoken]
      exact read?_value htree _ _
  | sign index op operand ih =>
      obtain ⟨rfl, hspan⟩ := hspans
      obtain ⟨⟨placed, htoken, hop⟩, hoperand⟩ := hmatches
      obtain ⟨hfirst, hlinks⟩ := links_of_not_operator hsigns.1
      rw [drop_eq_cons_of_getElem? htoken, read?_sign hop, ih hspan hoperand hsigns.2,
        Option.map_map, hfirst, hlinks]
      rfl
  | operator index op left right ihleft ihright =>
      obtain ⟨hleftSpan, hrightSpan⟩ := hspans
      obtain ⟨⟨placed, htoken, hop⟩, hleft, hright⟩ := hmatches
      rw [ihleft hleftSpan hleft hsigns.1, drop_eq_cons_of_getElem? htoken,
        readLinks?_operator hop, ihright hrightSpan hright hsigns.2, Option.map_map,
        Option.map_map]
      simp [Function.comp_def, first, links]

/-- An ordered tree over all tokens is the one that climbing builds. -/
theorem climb?_eq_some {tokens : List Placed} {tree : Located}
    (hspans : tree.Spans 0 tokens.length) (hmatches : tree.Matches tokens)
    (hsigns : tree.SignsBind) (hordered : tree.arrangement.Ordered) :
    climb? tokens = some tree := by
  have hread := read?_drop hspans hmatches hsigns
  rw [List.drop_zero, List.drop_length] at hread
  have hclimb : tree.first.climb (tree.links ++ []) = tree.climb [] := climb_links hordered nofun
  rw [climb] at hclimb
  rw [climb?, hread]
  exact congrArg some hclimb

end Located

/-! Tokens that are read are a row. -/

theorem Row.sign {placed : Placed} {op : UnaryOperator} (hop : placed.token.unary? = some op)
    {chain : Chain} {tokens : List Placed} (h : Row chain tokens) :
    ∃ signed, Row signed (placed :: tokens) := by
  induction h with
  | single hoperand => exact ⟨_, .single (.sign hop hoperand)⟩
  | push hrow hbinary hoperand ih =>
      obtain ⟨signed, hsigned⟩ := ih
      exact ⟨_, hsigned.push hbinary hoperand⟩

theorem Row.behind {left : Placed} {tree : Expr} (htree : left.token.tree? = some tree)
    {placed : Placed} {op : BinaryOperator} (hop : placed.token.binary? = some op)
    {chain : Chain} {tokens : List Placed} (h : Row chain tokens) :
    ∃ joined, Row joined (left :: placed :: tokens) := by
  induction h with
  | single hoperand => exact ⟨_, (Row.single (.value htree)).push hop hoperand⟩
  | push hrow hbinary hoperand ih =>
      obtain ⟨joined, hjoined⟩ := ih
      exact ⟨_, hjoined.push hbinary hoperand⟩

namespace Located

/-- Tokens in front of which an operand is read are a row, also behind an operand. -/
theorem row_of_read? (tokens : List Placed) :
    (∀ index found, read? index tokens = some found → ∃ chain, Row chain tokens) ∧
    ∀ index found left tree, readLinks? index tokens = some found → left.token.tree? = some tree →
      ∃ chain, Row chain (left :: tokens) := by
  induction tokens with
  | nil =>
      refine ⟨fun index found h => by simp [read?] at h, fun index found left tree _ htree => ?_⟩
      exact ⟨_, .single (.value htree)⟩
  | cons placed rest ih =>
      constructor
      · intro index found h
        cases htree : placed.token.tree? with
        | some tree =>
            rw [read?_value htree] at h
            obtain ⟨links, hlinks, _⟩ := Option.map_eq_some_iff.1 h
            exact ih.2 _ _ placed tree hlinks htree
        | none =>
            cases hop : placed.token.unary? with
            | none => simp [read?, htree, hop] at h
            | some op =>
                rw [read?_sign hop] at h
                obtain ⟨behind, hbehind, _⟩ := Option.map_eq_some_iff.1 h
                obtain ⟨chain, hrow⟩ := ih.1 _ _ hbehind
                exact hrow.sign hop
      · intro index found left tree h htree
        cases hop : placed.token.binary? with
        | none => simp [readLinks?, hop] at h
        | some op =>
            rw [readLinks?_operator hop] at h
            obtain ⟨behind, hbehind, _⟩ := Option.map_eq_some_iff.1 h
            obtain ⟨chain, hrow⟩ := ih.1 _ _ hbehind
            exact hrow.behind htree hop

theorem row_of_climb? {tokens : List Placed} {tree : Located} (h : climb? tokens = some tree) :
    ∃ chain, Row chain tokens := by
  obtain ⟨found, hfound, _⟩ := Option.map_eq_some_iff.1 h
  exact (row_of_read? tokens).1 _ _ hfound

end Located

end Formula
