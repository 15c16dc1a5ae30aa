/-
Products written without a star: a value directly behind a value multiplies it.
-/
import Formula.Token.Basic

namespace Formula

/-- Puts a star between neighbouring values, at the position of the right one. -/
def insertStars : List Placed → List Placed
  | left :: right :: rest =>
      if left.isValue && right.isValue then
        left :: ⟨.star, right.position⟩ :: insertStars (right :: rest)
      else left :: insertStars (right :: rest)
  | tokens => tokens

end Formula
