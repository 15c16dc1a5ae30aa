/-
The options of the program and the values they take.
-/
import Formula.Context

namespace Formula.CommandLine

/-- Options that take a value. -/
inductive ValueOption where
  | binding
  | angleUnit
  | decimalSeparator
  | spacing
deriving DecidableEq, Repr

/-- Options that stand alone. -/
inductive Switch where
  | noImplicit
  | render
  | help
  | version
deriving DecidableEq, Repr

/-- An option in its long or short spelling. -/
inductive Flag where
  | value (option : ValueOption)
  | switch (switch : Switch)
deriving DecidableEq, Repr

def Flag.ofLong? : String → Option Flag
  | "var" => some (.value .binding)
  | "angle-unit" => some (.value .angleUnit)
  | "decimal-separator" => some (.value .decimalSeparator)
  | "spacing" => some (.value .spacing)
  | "no-implicit" => some (.switch .noImplicit)
  | "render" => some (.switch .render)
  | "help" => some (.switch .help)
  | "version" => some (.switch .version)
  | _ => none

def Flag.ofShort? : Char → Option Flag
  | 'v' => some (.value .binding)
  | 'a' => some (.value .angleUnit)
  | 'd' => some (.value .decimalSeparator)
  | 's' => some (.value .spacing)
  | 'r' => some (.switch .render)
  | 'h' => some (.switch .help)
  | 'V' => some (.switch .version)
  | _ => none

def ValueOption.usage : ValueOption → String
  | .binding => "--var <NAME=VALUE>"
  | .angleUnit => "--angle-unit <UNIT>"
  | .decimalSeparator => "--decimal-separator <DECIMAL_SEPARATOR>"
  | .spacing => "--spacing <SPACING>"

def Switch.usage : Switch → String
  | .noImplicit => "--no-implicit"
  | .render => "--render"
  | .help => "--help"
  | .version => "--version"

/-- Why the arguments of the program are refused. -/
inductive UsageError where
  | unexpectedArgument (argument : String)
  | unexpectedValue (value : String) (switch : Switch)
  | invalidValue (value : String) (option : ValueOption) (reason : String)
  | missingValue (option : ValueOption)
  | missingExpression
  | repeated (usage : String)
deriving DecidableEq, Repr

def UsageError.message : UsageError → String
  | unexpectedArgument argument => s!"unexpected argument '{argument}' found"
  | unexpectedValue value switch =>
      let usage := switch.usage
      s!"unexpected value '{value}' for '{usage}' found; no more were expected"
  | invalidValue value option reason =>
      let usage := option.usage
      s!"invalid value '{value}' for '{usage}': {reason}"
  | missingValue option =>
      let usage := option.usage
      s!"a value is required for '{usage}' but none was supplied"
  | missingExpression => "the following required arguments were not provided:\n  <EXPRESSION>"
  | repeated usage => s!"the argument '{usage}' cannot be used multiple times"

/-- A variable and its value, around the first equals sign. -/
def readBinding (text : String) : Except String (String × Float) :=
  let (name, rest) := text.toList.span (· ≠ '=')
  match rest with
  | _ :: value =>
      match Binary64.read (Text.trim value) with
      | .ok value => pure (String.ofList (Text.trim name), value)
      | .error error =>
          let name := String.ofList name
          let reason := error.message
          throw s!"invalid value for '{name}': {reason}"
  | [] => throw s!"expected NAME=VALUE, got '{text}'"

def readUnit (text : String) : Except String AngleUnit :=
  match AngleUnit.ofText? text with
  | some unit => pure unit
  | none => throw s!"unknown angle unit '{text}'"

def readCharacter (text : String) : Except String Char :=
  match text.toList with
  | [] => throw "cannot parse char from empty string"
  | [c] => pure c
  | _ => throw "too many characters in string"

/-- Adds a digit to a number of 64 bits. -/
def addDigit (number : Nat) (c : Char) : Except String Nat :=
  if c.isDigit then
    let number := 10 * number + (c.toNat - '0'.toNat)
    if number < Nat.pow 2 64 then pure number else throw "number too large to fit in target type"
  else throw "invalid digit found in string"

/-- A natural number of 64 bits, with an optional plus sign. -/
def readNatural (text : String) : Except String Nat :=
  match text.toList with
  | [] => throw "cannot parse integer from empty string"
  | ['+'] => throw "invalid digit found in string"
  | '+' :: digits => digits.foldlM addDigit 0
  | digits => digits.foldlM addDigit 0

end Formula.CommandLine
