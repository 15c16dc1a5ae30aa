/-
Character classes given by ranges of code points.
-/
namespace Formula.Text

/-- First and last code point of a run of characters. -/
abbrev Range := Nat × Nat

def Range.holds (range : Range) (c : Char) : Bool :=
  range.1 ≤ c.toNat && c.toNat ≤ range.2

/-- Whether one of the ranges holds the character. -/
def inRanges (ranges : List Range) (c : Char) : Bool :=
  ranges.any (Range.holds · c)

end Formula.Text
