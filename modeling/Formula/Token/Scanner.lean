/-
The scanner reads a text character by character and yields its tokens.  Blanks
are skipped, marks are tokens by themselves, a letter opens an identifier, and a
digit or the decimal separator opens a numeral.  A character that serves another
class is never a separator, except that a comma which separates decimals
continues the numeral it touches.
-/
import Formula.NumberFormat
import Formula.ParseError
import Formula.Text.Blank
import Formula.Text.DecimalDigit
import Formula.Text.Letter
import Formula.Token.Basic

namespace Formula

/-- What a character is to the scanner outside of identifiers. -/
inductive CharacterClass where
  | letter
  | blank
  | digit
  | mark (token : Token)
  | separator
  | other

def NumberFormat.classify (format : NumberFormat) (c : Char) : CharacterClass :=
  if Text.isLetter c then .letter
  else if Text.isBlank c then .blank
  else if c.isDigit then .digit
  else
    match Token.mark? c with
    | some token => .mark token
    | none => if c = format.decimalSeparator then .separator else .other

/-- A numeral that is being read, its digits in reverse. -/
structure OpenNumeral where
  start : Nat
  whole : List Char := []
  fraction : Option (List Char) := none

namespace OpenNumeral

def numeral (number : OpenNumeral) : Numeral :=
  ⟨number.whole.reverse, (number.fraction.getD []).reverse⟩

def digit (number : OpenNumeral) (c : Char) : OpenNumeral :=
  match number.fraction with
  | none => { number with whole := c :: number.whole }
  | some digits => { number with fraction := some (c :: digits) }

/-- A numeral holds one separator at most. -/
def separator (number : OpenNumeral) (position : Nat) : Except ParseError OpenNumeral :=
  match number.fraction with
  | none => pure { number with fraction := some [] }
  | some _ => throw ⟨.invalidNumber, position⟩

/-- A numeral holds one digit at least. -/
def close (number : OpenNumeral) : Except ParseError Placed :=
  let numeral := number.numeral
  if numeral.whole = [] ∧ numeral.fraction = [] then throw ⟨.invalidNumber, number.start⟩
  else pure ⟨.number (Binary64.ofCode false numeral.code), number.start⟩

end OpenNumeral

/-- The token that is being read, its characters in reverse. -/
inductive OpenToken where
  | nothing
  | identifier (start : Nat) (letters : List Char)
  | numeral (number : OpenNumeral) (touched : Bool)

/-- Where the scanner stands: the number of characters read, the tokens that are
complete, the last one first, and the token that is being read. -/
structure Scan where
  position : Nat := 0
  tokens : List Placed := []
  current : OpenToken := .nothing

namespace Scan

/-- Completes the token that is being read. -/
def close (scan : Scan) : Except ParseError Scan :=
  match scan.current with
  | .nothing => pure scan
  | .identifier start letters =>
      let name := String.ofList letters.reverse
      pure { scan with tokens := ⟨.identifier name, start⟩ :: scan.tokens, current := .nothing }
  | .numeral number _ => do
      let token ← number.close
      return { scan with tokens := token :: scan.tokens, current := .nothing }

/-- The numeral that the next character continues, if it touches one. -/
def touched? (scan : Scan) : Option OpenNumeral :=
  match scan.current with
  | .numeral number true => some number
  | _ => none

/-- The numeral that the next digit or separator belongs to: the one it touches,
or a new one after the current token is complete. -/
def numeral (scan : Scan) : Except ParseError (Scan × OpenNumeral) :=
  match scan.touched? with
  | some number => pure (scan, number)
  | none => do return (← scan.close, { start := scan.position })

def digit (scan : Scan) (c : Char) : Except ParseError Scan := do
  let (scan, number) ← scan.numeral
  return { scan with current := .numeral (number.digit c) true }

def separator (scan : Scan) : Except ParseError Scan := do
  let (scan, number) ← scan.numeral
  return { scan with current := .numeral (← number.separator scan.position) true }

def letter (scan : Scan) (c : Char) : Except ParseError Scan := do
  let scan ← scan.close
  return { scan with current := .identifier scan.position [c] }

def mark (scan : Scan) (token : Token) : Except ParseError Scan := do
  let scan ← scan.close
  return { scan with tokens := ⟨token, scan.position⟩ :: scan.tokens }

/-- A blank ends an identifier.  A numeral stays open, but nothing touches it any
more. -/
def blank (scan : Scan) : Except ParseError Scan :=
  match scan.current with
  | .numeral number _ => pure { scan with current := .numeral number false }
  | _ => scan.close

/-- Reads a character outside of an identifier. -/
def start (format : NumberFormat) (scan : Scan) (c : Char) : Except ParseError Scan :=
  match format.classify c with
  | .letter => scan.letter c
  | .blank => scan.blank
  | .digit => scan.digit c
  | .mark token =>
      if c = ',' ∧ format.decimalSeparator = ',' ∧ scan.touched?.isSome then scan.separator
      else scan.mark token
  | .separator => scan.separator
  | .other => throw ⟨.unknownCharacter c, scan.position⟩

/-- Reads one character.  Letters and decimal digits continue an identifier. -/
def step (format : NumberFormat) (scan : Scan) (c : Char) : Except ParseError Scan := do
  let next ←
    match scan.current with
    | .identifier start letters =>
        if Text.isLetter c ∨ Text.isDecimalDigit c then
          pure { scan with current := .identifier start (c :: letters) }
        else scan.start format c
    | _ => scan.start format c
  return { next with position := scan.position + 1 }

end Scan

/-- The tokens of a text. -/
def NumberFormat.scan (format : NumberFormat) (text : List Char) :
    Except ParseError (List Placed) := do
  let scan ← text.foldlM (Scan.step format) {}
  return (← scan.close).tokens.reverse

def tokenize (format : NumberFormat) (source : String) : Except ParseError (List Placed) :=
  format.scan source.toList

end Formula
