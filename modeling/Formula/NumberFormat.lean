/-
How the numbers of a formula are written: with which decimal separator.
-/
import Formula.Number.Text

namespace Formula

structure NumberFormat where
  decimalSeparator : Char
deriving DecidableEq, Repr

instance : Inhabited NumberFormat := ⟨⟨'.'⟩⟩

/-- The shortest digits that read back, with the separator of the format. -/
def NumberFormat.write (format : NumberFormat) (value : Float) : List Char :=
  Binary64.write format.decimalSeparator value

end Formula
