/-
Classes of tokens, and what a token of one class is not.
-/
import Formula.Token.Basic

namespace Formula

namespace Token

def isName : Token → Bool
  | identifier _ => true
  | _ => false

def isOpen : Token → Bool
  | openParen => true
  | _ => false

def isComma : Token → Bool
  | comma => true
  | _ => false

/-- Tokens that the scanner yields: they carry no trees. -/
def isScanned : Token → Bool
  | group _ | call _ => false
  | _ => true

/-- A token that is seen as something is none that is not. -/
theorem ne_of_view {α : Type} (view : Token → Option α) {token other : Token} {found : α}
    (hother : view other = none) (h : view token = some found) : token ≠ other := by
  rintro rfl
  rw [hother] at h
  cases h

theorem eq_comma_of_isComma {token : Token} (h : token.isComma = true) : token = comma := by
  cases token <;> first | rfl | cases h

theorem isOpen_of_isValue {token : Token} (h : token.isValue = true) : token.isOpen = false := by
  cases token <;> first | rfl | cases h

theorem isValue_of_tree? {token : Token} {tree : Expr} (h : token.tree? = some tree) :
    token.isValue = true := by
  rw [← isSome_tree?, h]
  rfl

theorem isValue_of_binary? {token : Token} {op : BinaryOperator}
    (h : token.binary? = some op) : token.isValue = false := by
  cases token <;> first | rfl | cases h

theorem isValue_of_unary? {token : Token} {op : UnaryOperator}
    (h : token.unary? = some op) : token.isValue = false := by
  cases token <;> first | rfl | cases h

theorem tree?_of_binary? {token : Token} {op : BinaryOperator}
    (h : token.binary? = some op) : token.tree? = none := by
  cases token <;> first | rfl | cases h

theorem tree?_of_unary? {token : Token} {op : UnaryOperator}
    (h : token.unary? = some op) : token.tree? = none := by
  cases token <;> first | rfl | cases h

theorem isOperator_of_binary? {token : Token} {op : BinaryOperator}
    (h : token.binary? = some op) : token.isOperator = true := by
  rw [isOperator, h]
  rfl

theorem isOperator_of_tree? {token : Token} {tree : Expr} (h : token.tree? = some tree) :
    token.isOperator = false := by
  cases token <;> first | rfl | cases h

theorem isOpen_of_binary? {token : Token} {op : BinaryOperator}
    (h : token.binary? = some op) : token.isOpen = false := by
  cases token <;> first | rfl | cases h

theorem isName_of_binary? {token : Token} {op : BinaryOperator}
    (h : token.binary? = some op) : token.isName = false := by
  cases token <;> first | rfl | cases h

theorem isName_of_unary? {token : Token} {op : UnaryOperator}
    (h : token.unary? = some op) : token.isName = false := by
  cases token <;> first | rfl | cases h

theorem isOperator_of_ne {token : Token} (hvalue : token.isValue = false)
    (hopen : token ≠ openParen) (hclose : token ≠ closeParen) (hcomma : token ≠ comma) :
    token.isOperator = true := by
  cases token <;> first | rfl | contradiction

end Token

end Formula
