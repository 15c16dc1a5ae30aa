/-
The value of a decimal.  Every digit counts its own value times the power of ten of its place,
and a run of digits with a separator among them denotes the double nearest to its decimal.
-/
import Formula.Proofs.Number.Nearest
import Formula.Proofs.Number.Numerals

namespace Formula

/-- The natural number that digits stand for. -/
def positional : List Char → ℕ
  | [] => 0
  | digit :: rest => (digit.toNat - '0'.toNat) * 10 ^ rest.length + positional rest

/-- The number with digits in front of a separator and behind it. -/
def decimal (whole fraction : List Char) : ℚ :=
  positional whole + positional fraction / 10 ^ fraction.length

/-- Runs of digits with one separator at most, and the double that is nearest to their decimal.
Whatever is no digit separates; there is a digit on one of its sides. -/
inductive HasValue : List Char → Float → Prop
  | whole {digits : List Char} {code : Nat} (hdigits : ∀ c ∈ digits, c.isDigit = true)
      (hne : digits ≠ []) (hnearest : Binary64.IsNearest (positional digits) code) :
      HasValue digits (Float.ofBits (UInt64.ofNat code))
  | separated {whole fraction : List Char} {separator : Char} {code : Nat}
      (hwhole : ∀ c ∈ whole, c.isDigit = true) (hseparator : separator.isDigit = false)
      (hfraction : ∀ c ∈ fraction, c.isDigit = true) (hne : ¬ (whole = [] ∧ fraction = []))
      (hnearest : Binary64.IsNearest (decimal whole fraction) code) :
      HasValue (whole ++ separator :: fraction) (Float.ofBits (UInt64.ofNat code))

theorem Binary64.ofCode_false (code : Nat) :
    ofCode false code = Float.ofBits (UInt64.ofNat code) := rfl

theorem ofDigitChars_eq_positional (digits : List Char) :
    Nat.ofDigitChars 10 digits 0 = positional digits := by
  induction digits with
  | nil => rfl
  | cons digit rest ih =>
      rw [Nat.ofDigitChars_cons, Nat.ofDigitChars_eq_ofDigitChars_zero, ih, positional,
        Nat.mul_zero, Nat.zero_add, Nat.mul_comm]

namespace Numeral

theorem coefficient_eq (whole fraction : List Char) :
    coefficient ⟨whole, fraction⟩ =
      positional whole * 10 ^ fraction.length + positional fraction := by
  rw [coefficient, Nat.ofDigitChars_append, Nat.ofDigitChars_eq_ofDigitChars_zero,
    ofDigitChars_eq_positional, ofDigitChars_eq_positional, Nat.mul_comm]

/-- The code of a numeral is that of the double nearest to its decimal. -/
theorem isNearest_code (whole fraction : List Char) :
    Binary64.IsNearest (decimal whole fraction) (code ⟨whole, fraction⟩) := by
  have hplaces : 0 < 10 ^ fraction.length := Nat.pow_pos (by decide)
  have hdecimal : decimal whole fraction =
      (coefficient ⟨whole, fraction⟩ : ℚ) / (10 ^ fraction.length : ℕ) := by
    rw [coefficient_eq, decimal]
    push_cast
    rw [add_div, mul_div_cancel_right₀ _ (by positivity)]
  rw [hdecimal, code, scaledCode_fraction]
  exact Binary64.isNearest_nearest _ hplaces

theorem isNearest_code_whole (digits : List Char) :
    Binary64.IsNearest (positional digits) (code ⟨digits, []⟩) := by
  have hdecimal : decimal digits [] = positional digits := by simp [decimal, positional]
  exact hdecimal ▸ isNearest_code digits []

end Numeral

namespace HasValue

/-- Digits have the value of their numeral. -/
theorem of_digits {digits : List Char} (hdigits : ∀ c ∈ digits, c.isDigit = true)
    (hne : digits ≠ []) :
    HasValue digits (Binary64.ofCode false (Numeral.code ⟨digits, []⟩)) := by
  rw [Binary64.ofCode_false]
  exact .whole hdigits hne (Numeral.isNearest_code_whole digits)

theorem of_separated {whole fraction : List Char} {separator : Char}
    (hwhole : ∀ c ∈ whole, c.isDigit = true) (hseparator : separator.isDigit = false)
    (hfraction : ∀ c ∈ fraction, c.isDigit = true) (hne : ¬ (whole = [] ∧ fraction = [])) :
    HasValue (whole ++ separator :: fraction)
      (Binary64.ofCode false (Numeral.code ⟨whole, fraction⟩)) := by
  rw [Binary64.ofCode_false]
  exact .separated hwhole hseparator hfraction hne (Numeral.isNearest_code whole fraction)

end HasValue

end Formula
