/-
The grammar of formulas, stated apart from the passes that read them.  It says
which tokens are a value, an operand, a chain of operands, a formula or a list of
arguments, and which trees they stand for.  Its levels and its look-up of functions
are its own, too: sums are made of products and products of powers, and a call is
bound to the first function of the registry that fits.
-/
import Formula.Proofs.Precedence.Arrangement
import Formula.Proofs.TokenClass
import Formula.Settings

namespace Formula

def endsInName (tokens : List Placed) : Bool := tokens.getLast?.any (·.token.isName)

def startsOpen (tokens : List Placed) : Bool := tokens.head?.any (·.token.isOpen)

/-- No parenthesis opens among the tokens. -/
def OpenFree (tokens : List Placed) : Prop := ∀ placed ∈ tokens, placed.token.isOpen = false

theorem eq_of_isName {placed : Placed} (h : placed.token.isName = true) :
    ∃ name position, placed = ⟨.identifier name, position⟩ := by
  obtain ⟨token, position⟩ := placed
  cases token with
  | identifier name => exact ⟨name, position, rfl⟩
  | _ => cases h

theorem eq_of_startsOpen {tokens : List Placed} (h : startsOpen tokens = true) :
    ∃ opening rest, tokens = ⟨.openParen, opening⟩ :: rest := by
  cases tokens with
  | nil => cases h
  | cons first rest =>
      obtain ⟨token, position⟩ := first
      cases token with
      | openParen => exact ⟨position, rest, rfl⟩
      | _ => cases h

theorem segment_behind (left : List Placed) (placed : Placed) (right : List Placed) :
    right <:+: left ++ placed :: right :=
  ((List.suffix_cons _ _).trans (List.suffix_append _ _)).isInfix

theorem segment_parentheses (opening closing : Nat) (inner after : List Placed) :
    inner <:+: ⟨.openParen, opening⟩ :: (inner ++ ⟨.closeParen, closing⟩ :: after) :=
  ⟨[⟨.openParen, opening⟩], ⟨.closeParen, closing⟩ :: after, by simp⟩

theorem segment_call (name : Placed) (opening closing : Nat) (inner after : List Placed) :
    inner <:+: name :: ⟨.openParen, opening⟩ :: (inner ++ ⟨.closeParen, closing⟩ :: after) :=
  (segment_parentheses opening closing inner after).trans (List.suffix_cons _ _).isInfix

/-- The function that stands first in the registry among those with a name and a number of
arguments. -/
def Settings.Binds (settings : Settings) (name : String) (arity : Nat) (function : Function) :
    Prop :=
  (function.name = name ∧ function.arity = arity) ∧ ∃ earlier later,
    settings.functions = earlier ++ function :: later ∧
      ∀ other ∈ earlier, ¬ (other.name = name ∧ other.arity = arity)

theorem Settings.function?_eq_some_iff {settings : Settings} {name : String} {arity : Nat}
    {function : Function} :
    settings.function? name arity = some function ↔ settings.Binds name arity function := by
  simp only [function?, Binds, List.find?_eq_some_iff_append, Bool.and_eq_true, beq_iff_eq,
    Bool.not_eq_true', Bool.and_eq_false_imp, beq_eq_false_iff_ne, not_and, ne_eq]

theorem Settings.Binds.mem {settings : Settings} {name : String} {arity : Nat}
    {function : Function} (h : settings.Binds name arity function) :
    function ∈ settings.functions := by
  obtain ⟨_, earlier, later, hfunctions, _⟩ := h
  simp [hfunctions]

/-- The level of the grammar that an operator stands on. -/
def BinaryOperator.level : BinaryOperator → Nat
  | add | sub => 0
  | mul | div | mod => 1
  | pow => 2

theorem BinaryOperator.priority_eq (op : BinaryOperator) : op.priority = op.level + 4 := by
  cases op <;> rfl

namespace Arrangement

/-- Arrangements by levels, the tighter ones above.  An operator takes its own level on its left
and the next one on its right. -/
inductive Layered : Nat → Arrangement → Prop
  | operand {level : Nat} (tree : Expr) : Layered level (operand tree)
  | operator {op : BinaryOperator} {left right : Arrangement} (hleft : Layered op.level left)
      (hright : Layered (op.level + 1) right) : Layered op.level (operator op left right)
  | tighter {level : Nat} {tree : Arrangement} (h : Layered (level + 1) tree) :
      Layered level tree

theorem Layered.mono {level weaker : Nat} (hle : weaker ≤ level) {tree : Arrangement}
    (h : tree.Layered level) : tree.Layered weaker := by
  induction hle with
  | refl => exact h
  | step _ ih => exact ih (.tighter h)

/-- An operator may stand on every level that is no tighter than its own. -/
theorem Layered.operator_of_le {level : Nat} {op : BinaryOperator} (hle : level ≤ op.level)
    {left right : Arrangement} (hleft : left.Layered op.level)
    (hright : right.Layered (op.level + 1)) :
    (Arrangement.operator op left right).Layered level :=
  (Layered.operator hleft hright).mono hle

/-- The levels of the grammar are the priorities of its operators. -/
theorem layered_iff {level : Nat} {tree : Arrangement} :
    tree.Layered level ↔ tree.Ordered ∧ tree.BindsAtLeast (level + 4) := by
  constructor
  · intro h
    induction h with
    | operand tree => exact ⟨trivial, trivial⟩
    | @operator op left right _ _ ihleft ihright =>
        rw [Nat.add_right_comm, ← op.priority_eq] at ihright
        rw [← op.priority_eq] at ihleft
        exact ⟨⟨ihleft.1, ihright.1, ihleft.2, ihright.2⟩, Nat.le_of_eq op.priority_eq.symm⟩
    | tighter _ ih => exact ⟨ih.1, ih.2.mono (Nat.add_le_add_right (Nat.le_succ _) 4)⟩
  · rintro ⟨hordered, hbinds⟩
    induction tree generalizing level with
    | operand tree => exact .operand tree
    | operator op left right ihleft ihright =>
        obtain ⟨hleft, hright, hleftBinds, hrightBinds⟩ := hordered
        rw [BindsAtLeast, op.priority_eq] at hbinds
        rw [op.priority_eq] at hleftBinds hrightBinds
        rw [Nat.add_right_comm] at hrightBinds
        exact .operator_of_le (Nat.le_of_add_le_add_right hbinds) (ihleft hleft hleftBinds)
          (ihright hright hrightBinds)

theorem bindsAtLeast_four (tree : Arrangement) : tree.BindsAtLeast 4 := by
  cases tree with
  | operand tree => trivial
  | operator op left right =>
      rw [BindsAtLeast, op.priority_eq]
      exact Nat.le_add_left 4 op.level

theorem layered_zero_iff {tree : Arrangement} : tree.Layered 0 ↔ tree.Ordered := by
  rw [layered_iff]
  exact and_iff_left tree.bindsAtLeast_four

theorem layered_map (change : Expr → Expr) {tree : Arrangement} :
    (tree.map change).Layered 0 ↔ tree.Layered 0 := by
  rw [layered_zero_iff, layered_zero_iff, ordered_map]

end Arrangement

/-- What tokens are read as: a value, a value behind signs, operands with operators
between them, a whole formula, or the arguments of a call. -/
inductive Phrase where
  | value (tree : Expr)
  | operand (tree : Expr)
  | chain (chain : Chain)
  | formula (tree : Expr)
  | arguments (trees : List Expr)

namespace Phrase

/-- Changes the trees of a phrase. -/
def map (change : Expr → Expr) : Phrase → Phrase
  | value tree => value (change tree)
  | operand tree => operand (change tree)
  | chain written => chain (written.map change)
  | formula tree => formula (change tree)
  | arguments trees => arguments (trees.map change)

/-- What is gathered from the trees of a phrase. -/
def gather (found : Expr → List Expr) : Phrase → List Expr
  | value tree => found tree
  | operand tree => found tree
  | chain written => written.operands.flatMap found
  | formula tree => found tree
  | arguments trees => trees.flatMap found

theorem gather_single (found : Expr → List Expr) (tree : Expr) :
    (chain (.single tree)).gather found = found tree := by
  simp [gather, Chain.operands, Chain.single]

theorem gather_push (found : Expr → List Expr) (written : Chain) (op : BinaryOperator)
    (tree : Expr) :
    (chain (written.push op tree)).gather found = (chain written).gather found ++ found tree := by
  simp [gather, Chain.operands_push]

theorem gather_formula {found : Expr → List Expr}
    (hbinary : ∀ op left right, found (.binary op left right) = found left ++ found right)
    (tree : Arrangement) : (chain tree.chain).gather found = (formula tree.expr).gather found :=
  (tree.gather_eq hbinary).symm

theorem gather_lastArgument (found : Expr → List Expr) (tree : Expr) :
    (arguments [tree]).gather found = (formula tree).gather found := by
  simp [gather]

theorem gather_argument (found : Expr → List Expr) (tree : Expr) (trees : List Expr) :
    (arguments (tree :: trees)).gather found = found tree ++ (arguments trees).gather found :=
  List.flatMap_cons

end Phrase

/-- The grammar.  A name in front of a parenthesis is never a value, so the product
of two neighbouring values is no product where their seam would open a call.  A
token that carries a tree stands for it. -/
inductive Derives (settings : Settings) : Phrase → List Placed → Prop
  | token {placed : Placed} {tree : Expr} (htree : placed.token.tree? = some tree) :
      Derives settings (.value tree) [placed]
  | call {name : String} {position opening closing : Nat} {arguments : List Expr}
      {function : Function} {tokens : List Placed}
      (harguments : Derives settings (.arguments arguments) tokens)
      (hfunction : settings.Binds name arguments.length function) :
      Derives settings (.value (function.call arguments))
        (⟨.identifier name, position⟩ :: ⟨.openParen, opening⟩ ::
          (tokens ++ [⟨.closeParen, closing⟩]))
  | group {opening closing : Nat} {inner : Expr} {tokens : List Placed}
      (hinner : Derives settings (.formula inner) tokens) :
      Derives settings (.value (.block inner))
        (⟨.openParen, opening⟩ :: (tokens ++ [⟨.closeParen, closing⟩]))
  | bare {tree : Expr} {tokens : List Placed} (hvalue : Derives settings (.value tree) tokens) :
      Derives settings (.operand tree) tokens
  | sign {placed : Placed} {op : UnaryOperator} {tree : Expr} {tokens : List Placed}
      (hop : placed.token.unary? = some op) (hoperand : Derives settings (.operand tree) tokens) :
      Derives settings (.operand (.unary op tree)) (placed :: tokens)
  | first {tree : Expr} {tokens : List Placed}
      (hoperand : Derives settings (.operand tree) tokens) :
      Derives settings (.chain (.single tree)) tokens
  | operator {chain : Chain} {placed : Placed} {op : BinaryOperator} {tree : Expr}
      {left right : List Placed} (hchain : Derives settings (.chain chain) left)
      (hop : placed.token.binary? = some op)
      (hoperand : Derives settings (.operand tree) right) :
      Derives settings (.chain (chain.push op tree)) (left ++ placed :: right)
  | juxtaposed {chain : Chain} {tree : Expr} {left right : List Placed}
      (himplicit : settings.implicitProducts = true)
      (hchain : Derives settings (.chain chain) left)
      (hvalue : Derives settings (.value tree) right)
      (hseam : ¬ (endsInName left ∧ startsOpen right)) :
      Derives settings (.chain (chain.push .mul tree)) (left ++ right)
  | formula {tree : Arrangement} {tokens : List Placed}
      (hchain : Derives settings (.chain tree.chain) tokens) (hlayered : tree.Layered 0) :
      Derives settings (.formula tree.expr) tokens
  | lastArgument {tree : Expr} {tokens : List Placed}
      (hformula : Derives settings (.formula tree) tokens) :
      Derives settings (.arguments [tree]) tokens
  | argument {tree : Expr} {trees : List Expr} {position : Nat} {tokens rest : List Placed}
      (hformula : Derives settings (.formula tree) tokens)
      (hrest : Derives settings (.arguments trees) rest) :
      Derives settings (.arguments (tree :: trees)) (tokens ++ ⟨.comma, position⟩ :: rest)

theorem Derives.ne_nil {settings : Settings} {phrase : Phrase} {tokens : List Placed}
    (h : Derives settings phrase tokens) : tokens ≠ [] := by
  induction h with
  | token | call | group | sign | operator | argument => simp
  | bare _ ih | first _ ih | formula _ _ ih | lastArgument _ ih => exact ih
  | juxtaposed _ _ _ _ ih => exact List.append_ne_nil_of_left_ne_nil ih _

/-- A value is a formula. -/
theorem Derives.of_value {settings : Settings} {tree : Expr} {tokens : List Placed}
    (h : Derives settings (.value tree) tokens) : Derives settings (.formula tree) tokens :=
  @Derives.formula _ (.operand tree) _ (.first (.bare h)) (.operand tree)

end Formula
