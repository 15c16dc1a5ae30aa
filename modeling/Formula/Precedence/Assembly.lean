/-
Trees from resolved tokens.  A resolution may be nonsense: every token is taken
at most once, so the assembly ends, and what does not describe a tree is refused.
The height is watched on the way down, with the trees inside of tokens included.
-/
import Formula.Expr.Height
import Formula.Precedence.Claims

namespace Formula

/-- The tokens that have not been taken yet, by index. -/
abbrev Slots := Array (Option Placed)

def Slots.ofTokens (tokens : List Placed) : Slots := (tokens.map some).toArray

/-- Takes a token out. -/
def Slots.take? (slots : Slots) (index : Nat) : Option (Placed × Slots) :=
  match slots[index]? with
  | some (some placed) => some (placed, slots.setIfInBounds index none)
  | _ => none

/-- An operator with the indices of its operands. -/
inductive Node where
  | unary (op : UnaryOperator) (operand : Nat)
  | binary (op : BinaryOperator) (left right : Nat)
deriving DecidableEq, Repr

/-- The node that a token forms with the operands of an operation. -/
def Operation.node? (operation : Operation) (token : Token) : Option Node :=
  match operation.isBinary, operation.operands with
  | false, [operand] => token.unary?.map (.unary · operand)
  | true, [left, right] => token.binary?.map (.binary · left right)
  | _, _ => none

namespace Resolution

def node? (resolution : Resolution) (index : Nat) (token : Token) : Option Node :=
  (resolution.operation? index).bind (·.node? token)

/-- Assembles the tree below a token.  The token stands at a level, counted from
the top, and the tree may have as many levels as there is room. -/
def assembleAt (resolution : Resolution) (room level index : Nat) (slots : Slots) :
    Except ParseError (Expr × Slots) :=
  match slots.take? index with
  | none => throw ⟨.noRootOperation, 0⟩
  | some (placed, slots) =>
      match placed.token.tree? with
      | some tree =>
          if tree.height ≤ room then pure (tree, slots)
          else throw ⟨.tooDeep (level + tree.height - 1), placed.position⟩
      | none =>
          match room with
          | 0 => throw ⟨.tooDeep level, placed.position⟩
          | room + 1 =>
              match resolution.node? index placed.token with
              | none => throw ⟨.noRootOperation, placed.position⟩
              | some (.unary op operand) => do
                  let (operand, slots) ← resolution.assembleAt room (level + 1) operand slots
                  return (.unary op operand, slots)
              | some (.binary op left right) => do
                  let (left, slots) ← resolution.assembleAt room (level + 1) left slots
                  let (right, slots) ← resolution.assembleAt room (level + 1) right slots
                  return (.binary op left right, slots)

/-- The tree of resolved tokens, if it is not higher than allowed. -/
def assemble (resolution : Resolution) (maxHeight : Nat) (tokens : List Placed) :
    Except ParseError Expr := do
  let (tree, _) ← resolution.assembleAt maxHeight 1 resolution.root (Slots.ofTokens tokens)
  return tree

end Resolution

end Formula
