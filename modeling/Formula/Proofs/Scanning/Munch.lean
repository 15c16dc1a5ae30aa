/-
Maximal munch: a scanner that looks at the whole rest of the text.  It takes the
longest run of characters that a name or a number can have, and reads the number from
its text.
-/
import Formula.Token.Scanner
import Mathlib.Tactic.Common

namespace Formula

namespace Text

/-- Characters of names behind the first. -/
def isWord (c : Char) : Bool := isLetter c || isDecimalDigit c

end Text

namespace NumberFormat

variable (format : NumberFormat)

/-- Whether a character separates decimals wherever it stands: no other class of
characters claims it. -/
def separates (c : Char) : Bool :=
  c = format.decimalSeparator &&
    (c = '.' || !((Token.mark? c).isSome || c.isDigit || Text.isLetter c || Text.isBlank c))

/-- Whether a character continues the number in front of it. -/
def continues (c : Char) : Bool :=
  c.isDigit || format.separates c || (c = ',' && format.decimalSeparator = ',')

end NumberFormat

/-- The number of a run of digits and separators, read with points for the
separators.  There is one separator at most, and a digit at least. -/
def literal? (run : List Char) : Option Float :=
  if 1 < run.countP (fun c => !c.isDigit) ∨ run.all (fun c => !c.isDigit) = true then none
  else (Binary64.read (run.map fun c => if c.isDigit then c else '.')).toOption

/-- The tokens of a text that stands at a position. -/
def NumberFormat.munch (format : NumberFormat) (position : Nat) :
    List Char → Option (List Placed)
  | [] => some []
  | c :: rest =>
      if Text.isBlank c then format.munch (position + 1) rest
      else
        match Token.mark? c with
        | some token => (format.munch (position + 1) rest).map (⟨token, position⟩ :: ·)
        | none =>
            if Text.isLetter c then
              let run := rest.takeWhile Text.isWord
              (format.munch (position + 1 + run.length) (rest.dropWhile Text.isWord)).map
                (⟨.identifier (String.ofList (c :: run)), position⟩ :: ·)
            else if c.isDigit || format.separates c then
              let run := rest.takeWhile format.continues
              (literal? (c :: run)).bind fun value =>
                (format.munch (position + 1 + run.length) (rest.dropWhile format.continues)).map
                  (⟨.number value, position⟩ :: ·)
            else none
termination_by text => text.length
decreasing_by
  all_goals simp only [List.length_cons]
  · omega
  · omega
  · exact Nat.lt_succ_of_le (List.dropWhile_sublist _).length_le
  · exact Nat.lt_succ_of_le (List.dropWhile_sublist _).length_le

end Formula
