/-
Why a text is no formula, and where.
-/

namespace Formula

/-- What is wrong with the text of a formula. -/
inductive ParseFault where
  | unknownCharacter (character : Char)
  | invalidNumber
  | emptyExpression
  | emptyArgument
  | emptyBlock
  | unclosedCall (name : String)
  | unclosedBlock
  | unmatchedClose
  | unknownFunction (name : String) (arity : Nat)
  | noRootOperation
  | unexpectedComma
  | tooDeep (depth : Nat)
deriving DecidableEq, Repr

def ParseFault.message : ParseFault → String
  | unknownCharacter character =>
      let character := character.toString
      s!"Unknown character '{character}'."
  | invalidNumber => "Invalid number."
  | emptyExpression => "Expression is empty."
  | emptyArgument => "Argument can't be empty."
  | emptyBlock => "Block can't be empty."
  | unclosedCall name => s!"Unclosed parameter list of function '{name}'."
  | unclosedBlock => "Unclosed parenthesis."
  | unmatchedClose => "Closing parenthesis without an opening parenthesis."
  | unknownFunction name arity => s!"Function '{name}' with {arity} parameter(s) isn't defined."
  | noRootOperation => "Failed to find root operation."
  | unexpectedComma => "Comma outside of a function argument list."
  | tooDeep depth => s!"Nesting depth {depth} exceeds the limit."

/-- A fault with the number of characters in front of the place it is found at. -/
structure ParseError where
  fault : ParseFault
  position : Nat
deriving DecidableEq, Repr

def ParseError.message (error : ParseError) : String :=
  let position := error.position
  let text := error.fault.message
  s!"Error at char {position}: {text}"

end Formula
