/-
Chains and their arrangements.  A chain is what is written: operands with binary
operators between them.  An arrangement of a chain is a tree over the same
operands, and precedence singles one of them out: the left operand of an operator
binds at least as tightly as the operator, the right operand more tightly.
-/
import Formula.Expr.Basic

namespace Formula

/-- Operands from left to right, each after the first behind its operator. -/
structure Chain where
  first : Expr
  rest : List (BinaryOperator × Expr)

/-- Binary operators over operands that are kept whole. -/
inductive Arrangement where
  | operand (tree : Expr)
  | operator (op : BinaryOperator) (left right : Arrangement)

namespace Chain

def operands (chain : Chain) : List Expr := chain.first :: chain.rest.map Prod.snd

def single (operand : Expr) : Chain := ⟨operand, []⟩

/-- Writes one more operand behind a chain. -/
def push (chain : Chain) (op : BinaryOperator) (operand : Expr) : Chain :=
  ⟨chain.first, chain.rest ++ [(op, operand)]⟩

/-- Writes two chains with an operator between them. -/
def join (left : Chain) (op : BinaryOperator) (right : Chain) : Chain :=
  ⟨left.first, left.rest ++ (op, right.first) :: right.rest⟩

/-- Changes the operands. -/
def map (change : Expr → Expr) (chain : Chain) : Chain :=
  ⟨change chain.first, chain.rest.map fun (op, operand) => (op, change operand)⟩

theorem push_join (left right : Chain) (op next : BinaryOperator) (operand : Expr) :
    (left.join op right).push next operand = left.join op (right.push next operand) := by
  simp [join, push]

theorem operands_push (chain : Chain) (op : BinaryOperator) (operand : Expr) :
    (chain.push op operand).operands = chain.operands ++ [operand] := by
  simp [operands, push]

theorem operands_join (left : Chain) (op : BinaryOperator) (right : Chain) :
    (left.join op right).operands = left.operands ++ right.operands := by
  simp [operands, join]

theorem map_push (change : Expr → Expr) (chain : Chain) (op : BinaryOperator) (operand : Expr) :
    (chain.push op operand).map change = (chain.map change).push op (change operand) := by
  simp [map, push]

theorem map_join (change : Expr → Expr) (left : Chain) (op : BinaryOperator) (right : Chain) :
    (left.join op right).map change = (left.map change).join op (right.map change) := by
  simp [map, join]

end Chain

namespace Arrangement

def expr : Arrangement → Expr
  | operand tree => tree
  | operator op left right => .binary op left.expr right.expr

/-- The chain that is arranged. -/
def chain : Arrangement → Chain
  | operand tree => .single tree
  | operator op left right => left.chain.join op right.chain

/-- What is gathered from a tree by going through its binary operators is gathered
from the operands. -/
theorem gather_eq {α : Type} {gather : Expr → List α}
    (hbinary : ∀ op left right, gather (.binary op left right) = gather left ++ gather right)
    (tree : Arrangement) : gather tree.expr = tree.chain.operands.flatMap gather := by
  induction tree with
  | operand tree => simp [expr, chain, Chain.single, Chain.operands]
  | operator op left right ihleft ihright =>
      rw [expr, hbinary, ihleft, ihright, chain, Chain.operands_join, List.flatMap_append]

theorem expr_induction {motive : Expr → Prop}
    (hbinary : ∀ op left right, motive left → motive right → motive (.binary op left right))
    (tree : Arrangement) (h : ∀ operand ∈ tree.chain.operands, motive operand) :
    motive tree.expr := by
  induction tree with
  | operand tree => exact h tree List.mem_cons_self
  | operator op left right ihleft ihright =>
      rw [chain, Chain.operands_join] at h
      exact hbinary op _ _ (ihleft fun operand hmem => h operand (List.mem_append_left _ hmem))
        (ihright fun operand hmem => h operand (List.mem_append_right _ hmem))

/-- Whether the topmost operator, if there is one, binds at least as tightly as a
priority. -/
def BindsAtLeast (priority : Nat) : Arrangement → Prop
  | operand _ => True
  | operator op _ _ => priority ≤ op.priority

/-- Tighter operators stand below weaker ones, and of equal operators the earlier
stands below the later. -/
def Ordered : Arrangement → Prop
  | operand _ => True
  | operator op left right =>
      left.Ordered ∧ right.Ordered ∧
        left.BindsAtLeast op.priority ∧ right.BindsAtLeast (op.priority + 1)

theorem BindsAtLeast.mono {priority weaker : Nat} {tree : Arrangement} (hle : weaker ≤ priority)
    (h : tree.BindsAtLeast priority) : tree.BindsAtLeast weaker := by
  cases tree with
  | operand tree => trivial
  | operator op left right => exact Nat.le_trans hle h

/-- Takes one more operand in, below the operators that are weaker than its own. -/
def graft (op : BinaryOperator) (operand : Expr) : Arrangement → Arrangement
  | .operand tree => .operator op (.operand tree) (.operand operand)
  | .operator top left right =>
      if op.priority ≤ top.priority then
        .operator op (.operator top left right) (.operand operand)
      else .operator top left (right.graft op operand)

/-- Takes operands in, from left to right. -/
def graftAll (tree : Arrangement) (rest : List (BinaryOperator × Expr)) : Arrangement :=
  rest.foldl (fun tree next => tree.graft next.1 next.2) tree

theorem graftAll_append (tree : Arrangement) (rest more : List (BinaryOperator × Expr)) :
    tree.graftAll (rest ++ more) = (tree.graftAll rest).graftAll more :=
  List.foldl_append

theorem graft_of_bindsAtLeast {op : BinaryOperator} {tree : Arrangement} (operand : Expr)
    (h : tree.BindsAtLeast op.priority) :
    tree.graft op operand = .operator op tree (.operand operand) := by
  cases tree with
  | operand tree => rfl
  | operator top left right => exact if_pos h

/-- All operators of an ordered arrangement bind at least as tightly as its top. -/
theorem Ordered.le_priority {priority : Nat} {tree : Arrangement} (hordered : tree.Ordered)
    (hbinds : tree.BindsAtLeast priority) :
    ∀ next ∈ tree.chain.rest, priority ≤ next.1.priority := by
  induction tree with
  | operand tree => simp [chain, Chain.single]
  | operator op left right ihleft ihright =>
      obtain ⟨hleft, hright, hleftBinds, hrightBinds⟩ := hordered
      intro next hnext
      simp only [chain, Chain.join, List.mem_append, List.mem_cons] at hnext
      rcases hnext with hnext | rfl | hnext
      · exact ihleft hleft (hleftBinds.mono hbinds) next hnext
      · exact hbinds
      · have hbelow : priority ≤ op.priority + 1 := Nat.le_succ_of_le hbinds
        exact ihright hright (hrightBinds.mono hbelow) next hnext

/-- Tighter operators go into the right operand. -/
theorem graftAll_operator {op : BinaryOperator} (left right : Arrangement)
    {rest : List (BinaryOperator × Expr)} (h : ∀ next ∈ rest, op.priority + 1 ≤ next.1.priority) :
    (operator op left right).graftAll rest = operator op left (right.graftAll rest) := by
  induction rest generalizing right with
  | nil => rfl
  | cons next rest ih =>
      have hnext : ¬ next.1.priority ≤ op.priority := by
        have := h next List.mem_cons_self
        omega
      have hgraft : (operator op left right).graft next.1 next.2 =
          operator op left (right.graft next.1 next.2) := if_neg hnext
      simp only [graftAll, List.foldl_cons, hgraft] at ih ⊢
      exact ih _ fun other hother => h other (List.mem_cons_of_mem next hother)

/-- An ordered arrangement is determined by its chain: it is what grafting one
operand after the other yields. -/
theorem Ordered.graftAll_chain {tree : Arrangement} (h : tree.Ordered) :
    (operand tree.chain.first).graftAll tree.chain.rest = tree := by
  induction tree with
  | operand tree => rfl
  | operator op left right ihleft ihright =>
      obtain ⟨hleft, hright, hleftBinds, hrightBinds⟩ := h
      have htighter := hright.le_priority hrightBinds
      have happend : (operator op left right).chain.rest =
          left.chain.rest ++ (op, right.chain.first) :: right.chain.rest := rfl
      calc (operand left.chain.first).graftAll (operator op left right).chain.rest
          = (left.graft op right.chain.first).graftAll right.chain.rest := by
            rw [happend, graftAll_append, ihleft hleft]
            rfl
        _ = (operator op left (operand right.chain.first)).graftAll right.chain.rest := by
            rw [graft_of_bindsAtLeast _ hleftBinds]
        _ = operator op left right := by
            rw [graftAll_operator left _ htighter, ihright hright]

theorem Ordered.eq_of_chain_eq {tree other : Arrangement} (h : tree.Ordered)
    (hother : other.Ordered) (hchain : tree.chain = other.chain) : tree = other := by
  rw [← h.graftAll_chain, ← hother.graftAll_chain, hchain]

/-- Changes the operands. -/
def map (change : Expr → Expr) : Arrangement → Arrangement
  | operand tree => operand (change tree)
  | operator op left right => operator op (left.map change) (right.map change)

theorem chain_map (change : Expr → Expr) (tree : Arrangement) :
    (tree.map change).chain = tree.chain.map change := by
  induction tree with
  | operand tree => rfl
  | operator op left right ihleft ihright =>
      rw [map, chain, ihleft, ihright, chain, Chain.map_join]

theorem expr_map {change : Expr → Expr}
    (hbinary : ∀ op left right, change (.binary op left right) =
      .binary op (change left) (change right)) (tree : Arrangement) :
    (tree.map change).expr = change tree.expr := by
  induction tree with
  | operand tree => rfl
  | operator op left right ihleft ihright => rw [map, expr, ihleft, ihright, expr, hbinary]

theorem bindsAtLeast_map (change : Expr → Expr) {priority : Nat} {tree : Arrangement} :
    (tree.map change).BindsAtLeast priority ↔ tree.BindsAtLeast priority := by
  cases tree <;> exact Iff.rfl

/-- Precedence does not look into the operands. -/
theorem ordered_map (change : Expr → Expr) {tree : Arrangement} :
    (tree.map change).Ordered ↔ tree.Ordered := by
  induction tree with
  | operand tree => exact Iff.rfl
  | operator op left right ihleft ihright =>
      simp only [map, Ordered, ihleft, ihright, bindsAtLeast_map]

/-- A chain of changed operands is arranged as the chain of the operands is. -/
theorem exists_map_eq {change : Expr → Expr} {tree : Arrangement} {chain : Chain}
    (h : tree.chain = chain.map change) :
    ∃ found : Arrangement, found.chain = chain ∧ found.map change = tree := by
  induction tree generalizing chain with
  | operand tree =>
      obtain ⟨first, rest⟩ := chain
      obtain ⟨rfl, hrest⟩ := Chain.mk.inj h
      obtain rfl := List.map_eq_nil_iff.1 hrest.symm
      exact ⟨operand first, rfl, rfl⟩
  | operator op left right ihleft ihright =>
      obtain ⟨first, rest⟩ := chain
      obtain ⟨hfirst, hrest⟩ := Chain.mk.inj h
      obtain ⟨before, more, rfl, hbefore, hmore⟩ := List.map_eq_append_iff.1 hrest.symm
      obtain ⟨⟨other, next⟩, after, rfl, hseam, hafter⟩ := List.map_eq_cons_iff.1 hmore
      obtain ⟨rfl, hnext⟩ := Prod.mk.inj hseam
      have hleft : left.chain = Chain.map change ⟨first, before⟩ := by
        simp only [Chain.map, hbefore, ← hfirst]
      have hright : right.chain = Chain.map change ⟨next, after⟩ := by
        simp only [Chain.map, hafter, hnext]
      obtain ⟨foundLeft, hfoundLeft, rfl⟩ := ihleft hleft
      obtain ⟨foundRight, hfoundRight, rfl⟩ := ihright hright
      refine ⟨operator other foundLeft foundRight, ?_, rfl⟩
      rw [Arrangement.chain, hfoundLeft, hfoundRight]
      rfl

end Arrangement

end Formula
