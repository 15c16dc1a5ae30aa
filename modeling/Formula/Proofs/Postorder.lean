/-
The nodes of a formula in the order in which they are evaluated: each behind the nodes
below it, and those from left to right.  What holds of the functions that formulas may call
holds of all calls in a formula that is parsed.
-/
import Formula.Proofs.Parsing

namespace Formula

namespace Expr

mutual

/-- The nodes of a tree, each behind those below it. -/
def postorder : Expr → List Expr
  | number value => [number value]
  | var name => [var name]
  | call name arguments implementation =>
      postorders arguments ++ [call name arguments implementation]
  | block inner => postorder inner ++ [block inner]
  | unary op operand => postorder operand ++ [unary op operand]
  | binary op left right => postorder left ++ postorder right ++ [binary op left right]

def postorders : List Expr → List Expr
  | [] => []
  | expr :: rest => postorder expr ++ postorders rest

end

theorem mem_postorders {node : Expr} {exprs : List Expr} :
    node ∈ postorders exprs ↔ ∃ expr ∈ exprs, node ∈ expr.postorder := by
  induction exprs with
  | nil => simp [postorders]
  | cons expr rest ih => simp [postorders, ih]

/-- All calls in a tree hand such arguments to such implementations. -/
def CallsAre (holds : List Expr → Implementation → Prop) (tree : Expr) : Prop :=
  ∀ name arguments implementation, call name arguments implementation ∈ tree.postorder →
    holds arguments implementation

namespace CallsAre

variable {holds : List Expr → Implementation → Prop}

theorem call_iff {name : String} {arguments : List Expr} {implementation : Implementation} :
    (call name arguments implementation).CallsAre holds ↔
      (∀ argument ∈ arguments, argument.CallsAre holds) ∧ holds arguments implementation := by
  constructor
  · intro h
    constructor
    · intro argument hargument other others called hmem
      apply h other others called
      rw [postorder]
      exact List.mem_append_left _ (mem_postorders.2 ⟨argument, hargument, hmem⟩)
    · apply h name
      rw [postorder]
      exact List.mem_append_right _ List.mem_cons_self
  · rintro ⟨harguments, hroot⟩ other others called hmem
    rw [postorder] at hmem
    rcases List.mem_append.1 hmem with hmem | hmem
    · obtain ⟨argument, hargument, hmem⟩ := mem_postorders.1 hmem
      exact harguments argument hargument other others called hmem
    · cases List.mem_singleton.1 hmem
      exact hroot

theorem number (value : Float) : (Expr.number value).CallsAre holds := by
  simp [CallsAre, postorder]

theorem var (name : String) : (Expr.var name).CallsAre holds := by
  simp [CallsAre, postorder]

theorem block_iff {inner : Expr} : (block inner).CallsAre holds ↔ inner.CallsAre holds := by
  simp [CallsAre, postorder]

theorem unary_iff {op : UnaryOperator} {operand : Expr} :
    (unary op operand).CallsAre holds ↔ operand.CallsAre holds := by
  simp [CallsAre, postorder]

theorem binary_iff {op : BinaryOperator} {left right : Expr} :
    (binary op left right).CallsAre holds ↔ left.CallsAre holds ∧ right.CallsAre holds := by
  simp only [CallsAre, postorder, List.mem_append, List.mem_singleton, reduceCtorEq, or_false]
  constructor
  · intro h
    exact ⟨fun name arguments called hmem => h name arguments called (.inl hmem),
      fun name arguments called hmem => h name arguments called (.inr hmem)⟩
  · rintro ⟨hleft, hright⟩ name arguments called (hmem | hmem)
    · exact hleft name arguments called hmem
    · exact hright name arguments called hmem

end CallsAre

end Expr

/-- Calls are bound to the functions of the settings, with as many arguments as these take. -/
theorem Derives.callsAre {holds : List Expr → Implementation → Prop} {settings : Settings}
    (hfunctions : ∀ function ∈ settings.functions, ∀ arguments,
      arguments.length = function.arity → holds arguments function.implementation)
    {tokens : List Placed} (hscanned : ∀ placed ∈ tokens, placed.token.isScanned = true)
    {tree : Expr} (h : Derives settings (.formula tree) tokens) : tree.CallsAre holds := by
  refine h.scanned_induction hscanned (fun _ _ value _ => Expr.CallsAre.number value)
    (fun _ _ name _ => Expr.CallsAre.var name) ?_ (fun _ => Expr.CallsAre.block_iff.2)
    (fun _ _ => Expr.CallsAre.unary_iff.2)
    fun _ _ _ hleft hright => Expr.CallsAre.binary_iff.2 ⟨hleft, hright⟩
  intro name arguments function hfunction _ harguments
  exact Expr.CallsAre.call_iff.2
    ⟨harguments, hfunctions function hfunction.mem arguments hfunction.1.2.symm⟩

end Formula
