/-
Operator precedence over tokens without parentheses.  One scan from left to right
lets every operator claim its operands.  The right neighbour is always free.  The
left neighbour may have owners already: the claimant then takes the topmost of
them that binds at least as tightly and steps into its place below the next one,
so that equal operators associate to the left.
-/
import Std.Data.TreeMap
import Formula.ParseError
import Formula.Token.Basic

namespace Formula

/-- An operator with the indices of the tokens at the top of its operands. -/
structure Operation where
  isBinary : Bool
  priority : Nat
  operands : List Nat
deriving DecidableEq, Repr

/-- The token at the top of a tree, and every operation by the index of its
token. -/
structure Resolution where
  root : Nat
  operations : Std.TreeMap Nat Operation

def Resolution.operation? (resolution : Resolution) (index : Nat) : Option Operation :=
  resolution.operations[index]?

/-- What the operators scanned so far have claimed: the owner of every claimed
token, and every operation by the index of its token. -/
structure Claims where
  owners : Std.TreeMap Nat Nat := {}
  operations : Std.TreeMap Nat Operation := {}

namespace Claims

def owner? (claims : Claims) (index : Nat) : Option Nat := claims.owners[index]?

def operation? (claims : Claims) (index : Nat) : Option Operation := claims.operations[index]?

/-- Whether the operation of a token binds at least as tightly as a priority. -/
def bindsAtLeast (claims : Claims) (priority index : Nat) : Bool :=
  (claims.operation? index).any (priority ≤ ·.priority)

/-- Climbs from a token over owners that bind at least as tightly as a priority.
An owner on the way lies to the left of what it owns. -/
def topmost (claims : Claims) (priority operand : Nat) : Nat :=
  match claims.owner? operand with
  | some owner =>
      if owner < operand ∧ claims.bindsAtLeast priority owner then claims.topmost priority owner
      else operand
  | none => operand
termination_by operand

/-- Puts a claimant into the place that a token has below its owner. -/
def replace (claims : Claims) (operand claimant : Nat) : Claims :=
  match claims.owner? operand with
  | some owner =>
      { owners := claims.owners.insert claimant owner
        operations := claims.operations.modify owner fun operation =>
          { operation with
            operands := operation.operands.map fun slot =>
              if slot = operand then claimant else slot } }
  | none => claims

/-- Claims the left operand of a binary operator. -/
def claimLeft (claims : Claims) (claimant priority : Nat) : Claims × Nat :=
  let operand := claims.topmost priority (claimant - 1)
  let claims := claims.replace operand claimant
  ({ claims with owners := claims.owners.insert operand claimant }, operand)

/-- Records an operation that claims the token behind it. -/
def claimRight (claims : Claims) (claimant : Nat) (operation : Operation) : Claims where
  owners := claims.owners.insert (claimant + 1) claimant
  operations := claims.operations.insert claimant operation

/-- Lets an operator claim its operands. -/
def claim (claims : Claims) (index priority : Nat) (isBinary : Bool) : Claims :=
  if isBinary then
    let (claims, left) := claims.claimLeft index priority
    claims.claimRight index ⟨true, priority, [left, index + 1]⟩
  else claims.claimRight index ⟨false, priority, [index + 1]⟩

/-- Takes in the next token.  Plus and minus are signs unless they follow a
value; every other operator is binary and needs a value in front of it.  No
operator ends a formula. -/
def accept (claims : Claims) (index : Nat) (afterValue isLast : Bool) (placed : Placed) :
    Except ParseError Claims :=
  match placed.token with
  | .number _ | .identifier _ | .call _ | .group _ => pure claims
  | .comma => throw ⟨.unexpectedComma, placed.position⟩
  | token =>
      let isBinary := token.unary?.isNone || afterValue
      if !token.isOperator || isLast || (isBinary && !afterValue) then
        throw ⟨.noRootOperation, placed.position⟩
      else pure (claims.claim index (token.priority isBinary) isBinary)

/-- Takes in tokens from an index on. -/
def acceptAll (claims : Claims) (index : Nat) (afterValue : Bool) :
    List Placed → Except ParseError Claims
  | [] => pure claims
  | placed :: rest => do
      let claims ← claims.accept index afterValue rest.isEmpty placed
      claims.acceptAll (index + 1) placed.isValue rest

/-- The tokens that nothing has claimed, among the first so many. -/
def unclaimed (claims : Claims) (count : Nat) : List Nat :=
  (List.range count).filter fun index => (claims.owner? index).isNone

end Claims

/-- The position of the token at an index, and zero where there is none. -/
def positionAt (tokens : List Placed) (index : Nat) : Nat :=
  (tokens[index]?.map Placed.position).getD 0

/-- Finds the operands of all operators; the one token left unclaimed is the root. -/
def resolve (tokens : List Placed) : Except ParseError Resolution := do
  let claims ← Claims.acceptAll {} 0 false tokens
  match claims.unclaimed tokens.length with
  | [root] => return ⟨root, claims.operations⟩
  | _ :: extra :: _ => throw ⟨.noRootOperation, positionAt tokens extra⟩
  | [] => throw ⟨.noRootOperation, positionAt tokens 0⟩

end Formula
