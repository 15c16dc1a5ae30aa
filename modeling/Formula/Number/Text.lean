/-
The text of a double: the shortest digits that read back, in positional
notation without an exponent, or one of the words NaN, inf and -inf.  Reading
also takes exponents and the long spelling of infinity.
-/
import Formula.Number.Numeral

namespace Formula.Binary64

/-- Writes a double with a character of choice between its whole digits and its
fraction. -/
def write (separator : Char) (x : Float) : List Char :=
  if isNotANumber x then "NaN".toList
  else
    let magnitude :=
      if isFinite x then (Numeral.shortest (code x)).write separator else "inf".toList
    if isNegative x then '-' :: magnitude else magnitude

def toText (x : Float) : String := String.ofList (write '.' x)

/-- Why a text is no double. -/
inductive ReadError where
  | empty
  | malformed
deriving DecidableEq, Repr

def ReadError.message : ReadError → String
  | .empty => "cannot parse float from empty string"
  | .malformed => "invalid float literal"

/-- Splits a sign off, and says whether it is a minus. -/
def readSign : List Char → Bool × List Char
  | '-' :: rest => (true, rest)
  | '+' :: rest => (false, rest)
  | text => (false, text)

/-- The power of ten after the digits: nothing, or e, a sign and digits. -/
def readExponent? : List Char → Option Int
  | [] => some 0
  | mark :: rest =>
      if mark = 'e' ∨ mark = 'E' then
        let (negative, digits) := readSign rest
        if digits ≠ [] ∧ digits.all Char.isDigit then
          let exponent : Int := Nat.ofDigitChars 10 digits 0
          some (if negative then -exponent else exponent)
        else none
      else none

/-- Digits around an optional point, at least one, and an optional exponent. -/
def readDecimal? (text : List Char) : Option Nat :=
  let (whole, rest) := text.span Char.isDigit
  let (fraction, rest) :=
    match rest with
    | '.' :: rest => rest.span Char.isDigit
    | _ => ([], rest)
  let numeral : Numeral := ⟨whole, fraction⟩
  if whole = [] ∧ fraction = [] then none
  else (readExponent? rest).map fun exponent =>
    Numeral.scaledCode numeral.coefficient (exponent - fraction.length)

/-- The code of an unsigned text; words count in any case. -/
def readMagnitude? (text : List Char) : Option Nat :=
  let word := String.ofList (text.map Char.toLower)
  if word = "nan" then some (code notANumber)
  else if word = "inf" ∨ word = "infinity" then some infinity
  else readDecimal? text

def read (text : List Char) : Except ReadError Float :=
  if text = [] then throw .empty
  else
    let (negative, rest) := readSign text
    match readMagnitude? rest with
    | some magnitude => pure (ofCode negative magnitude)
    | none => throw .malformed

end Formula.Binary64
