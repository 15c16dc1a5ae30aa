/-
Numerals read back.  A numeral of digits after a point denotes the double nearest to
their quotient, so the shortest numeral of a finite double denotes that double, and
has no fraction if the double is a whole number.
-/
import Formula.Number.Numeral
import Formula.Proofs.Number.Rounding
import Mathlib.Data.List.DropRight

namespace Formula.Numeral

open Binary64 (infinity nearest units unitsPerOne)

/-- Quotients that are rounded to nothing at once, without a large power, are. -/
theorem nearest_eq_zero_of_log2 {coefficient places : Nat}
    (h : coefficient.log2 + 1076 ≤ 3 * places) : nearest coefficient (10 ^ places) = 0 := by
  apply Binary64.nearest_eq_zero
  have hlog : coefficient < 2 ^ (coefficient.log2 + 1) := Nat.lt_log2_self
  calc 2 * (coefficient * unitsPerOne)
      < 2 * (2 ^ (coefficient.log2 + 1) * unitsPerOne) :=
        Nat.mul_lt_mul_of_pos_left (Nat.mul_lt_mul_of_pos_right hlog Binary64.unitsPerOne_pos)
          (by decide)
    _ = 2 ^ (coefficient.log2 + 1 + 1074 + 1) := by
        rw [← Binary64.two_pow_mul_unitsPerOne, Nat.mul_comm 2, ← Nat.pow_succ]
    _ ≤ 2 ^ (3 * places) := Nat.pow_le_pow_right (by decide) h
    _ = (2 ^ 3) ^ places := Nat.pow_mul 2 3 places
    _ ≤ 10 ^ places := Nat.pow_le_pow_left (by decide) places

theorem scaledCode_fraction (coefficient places : Nat) :
    scaledCode coefficient (-(places : Int)) = nearest coefficient (10 ^ places) := by
  cases places with
  | zero =>
      rw [Int.natCast_zero, Int.neg_zero]
      by_cases hzero : coefficient = 0
      · rw [hzero, Binary64.nearest_eq_zero (by simp)]
        simp [scaledCode]
      · simp [scaledCode, hzero]
  | succ predecessor =>
      have hneg : -((predecessor + 1 : Nat) : Int) = Int.negSucc predecessor := rfl
      rw [hneg, scaledCode, Nat.pow_eq]
      by_cases hsmall : coefficient.log2 + 1076 ≤ 3 * (predecessor + 1)
      · rw [if_pos hsmall, nearest_eq_zero_of_log2 hsmall]
      · rw [if_neg hsmall]

theorem code_le_infinity (numeral : Numeral) : numeral.code ≤ infinity := by
  rw [code, scaledCode_fraction]
  exact Binary64.nearest_le_infinity _ _

/-- Digits without a fraction denote a whole number. -/
theorem unitsPerOne_dvd_code (digits : List Char) :
    unitsPerOne ∣ units (Numeral.code ⟨digits, []⟩) := by
  rw [code, scaledCode_fraction]
  exact Binary64.unitsPerOne_dvd_units _

/-- Below infinity, the powers of ten that are tried are small. -/
theorem scaledCode_whole {coefficient exponent : Nat}
    (h : scaledCode coefficient (Int.ofNat exponent) < infinity) :
    scaledCode coefficient (Int.ofNat exponent) = nearest (coefficient * 10 ^ exponent) 1 := by
  rw [scaledCode, Nat.pow_eq] at h ⊢
  by_cases hzero : coefficient = 0
  · rw [if_pos hzero, hzero, Nat.zero_mul, Binary64.nearest_eq_zero (by simp)]
  · by_cases hlarge : 309 ≤ exponent
    · rw [if_neg hzero, if_pos hlarge] at h
      exact absurd h (Nat.lt_irrefl _)
    · rw [if_neg hzero, if_neg hlarge]

/-- The digits of a fraction, with as many places as there are. -/
def placesOf (coefficient places : Nat) : List Char :=
  (Nat.toDigits 10 (coefficient % 10 ^ places)).leftpad places '0'

theorem length_placesOf (coefficient : Nat) {places : Nat} (hpos : 0 < places) :
    (placesOf coefficient places).length = places := by
  have hlength : (Nat.toDigits 10 (coefficient % 10 ^ places)).length ≤ places :=
    (Nat.length_toDigits_le_iff (by decide) hpos).2 (Nat.mod_lt _ (Nat.pow_pos (by decide)))
  rw [placesOf, List.length_leftpad]
  exact Nat.max_eq_left hlength

theorem ofDigitChars_placesOf (coefficient places : Nat) :
    Nat.ofDigitChars 10 (placesOf coefficient places) 0 = coefficient % 10 ^ places := by
  rw [placesOf, List.leftpad, Nat.ofDigitChars_append, Nat.ofDigitChars_replicate_zero,
    Nat.mul_zero, Nat.ofDigitChars_ten_toDigits]

theorem isDigit_of_mem_placesOf {coefficient places : Nat} {c : Char}
    (h : c ∈ placesOf coefficient places) : c.isDigit = true := by
  rcases List.mem_append.1 h with hzero | hdigit
  · rw [List.eq_of_mem_replicate hzero]
    rfl
  · exact Nat.isDigit_of_mem_toDigits (by decide) (by decide) hdigit

/-- The zeros at the end are what the fraction leaves out. -/
theorem placesOf_eq_fraction (coefficient : Nat) {places : Nat} (hpos : 0 < places) :
    ∃ zeros, placesOf coefficient places =
      (ofCoefficient coefficient places).fraction ++ List.replicate zeros '0' := by
  have hfraction : (ofCoefficient coefficient places).fraction =
      (placesOf coefficient places).rdropWhile (· = '0') := if_neg (Nat.ne_of_gt hpos)
  refine ⟨((placesOf coefficient places).rtakeWhile (· = '0')).length, ?_⟩
  have hzeros : ∀ c ∈ (placesOf coefficient places).rtakeWhile (· = '0'), c = '0' :=
    fun c hc => by simpa using List.mem_rtakeWhile_imp hc
  rw [hfraction, ← List.eq_replicate_of_mem hzeros, List.rdropWhile_append_rtakeWhile]

/-- A numeral keeps its value where zeros are left out. -/
theorem coefficient_ofCoefficient (coefficient places : Nat) :
    ∃ zeros, (ofCoefficient coefficient places).fraction.length + zeros = places ∧
      (ofCoefficient coefficient places).coefficient * 10 ^ zeros = coefficient := by
  have hwhole : Nat.ofDigitChars 10 (ofCoefficient coefficient places).whole 0 =
      coefficient / 10 ^ places := Nat.ofDigitChars_ten_toDigits
  rcases Nat.eq_zero_or_pos places with rfl | hpos
  · refine ⟨0, rfl, ?_⟩
    have hnone : (ofCoefficient coefficient 0).fraction = [] := rfl
    rw [Numeral.coefficient, hnone, List.append_nil, hwhole]
    simp
  · obtain ⟨zeros, hplaces⟩ := placesOf_eq_fraction coefficient hpos
    have hlength := length_placesOf coefficient hpos
    have hvalue := ofDigitChars_placesOf coefficient places
    rw [hplaces, List.length_append, List.length_replicate] at hlength
    rw [hplaces, Nat.ofDigitChars_append, Nat.ofDigitChars_replicate_zero] at hvalue
    refine ⟨zeros, hlength, ?_⟩
    rw [Numeral.coefficient, Nat.ofDigitChars_append, hwhole,
      Nat.ofDigitChars_eq_ofDigitChars_zero, Nat.add_mul, Nat.mul_comm _ (10 ^ zeros),
      Nat.mul_comm _ (10 ^ zeros), hvalue, ← Nat.mul_assoc, ← Nat.pow_add, Nat.add_comm zeros,
      hlength]
    exact Nat.div_add_mod coefficient (10 ^ places)

theorem code_ofCoefficient (coefficient places : Nat) :
    (ofCoefficient coefficient places).code = nearest coefficient (10 ^ places) := by
  obtain ⟨zeros, hplaces, hcoefficient⟩ := coefficient_ofCoefficient coefficient places
  rw [code, scaledCode_fraction, ← Binary64.nearest_mul (Nat.pow_pos (by decide : 0 < 10)),
    hcoefficient, ← Nat.pow_add, hplaces]

/-- Digits on both sides of the point, and one at least in front of it. -/
structure WellFormed (numeral : Numeral) : Prop where
  whole_ne_nil : numeral.whole ≠ []
  whole : ∀ c ∈ numeral.whole, c.isDigit = true
  fraction : ∀ c ∈ numeral.fraction, c.isDigit = true

theorem wellFormed_ofCoefficient (coefficient places : Nat) :
    (ofCoefficient coefficient places).WellFormed where
  whole_ne_nil := Nat.toDigits_ne_nil
  whole c hc := Nat.isDigit_of_mem_toDigits (by decide) (by decide) hc
  fraction c hc := by
    rcases Nat.eq_zero_or_pos places with rfl | hpos
    · cases hc
    · obtain ⟨zeros, hplaces⟩ := placesOf_eq_fraction coefficient hpos
      exact isDigit_of_mem_placesOf (hplaces ▸ List.mem_append_left _ hc)

theorem code_ofScaled {coefficient : Nat} {exponent : Int}
    (h : scaledCode coefficient exponent < infinity) :
    (ofScaled coefficient exponent).code = scaledCode coefficient exponent := by
  cases exponent with
  | ofNat exponent =>
      rw [scaledCode_whole h, ofScaled, Nat.pow_eq, code_ofCoefficient, Nat.pow_zero]
  | negSucc predecessor =>
      rw [ofScaled, code_ofCoefficient]
      exact (scaledCode_fraction coefficient (predecessor + 1)).symm

theorem ten_pow (places : Nat) : 10 ^ places = 2 ^ places * 5 ^ places := Nat.mul_pow 2 5 places

theorem exact_eq (count : Nat) : exact count = ofCoefficient (count * 5 ^ 1074) 1074 := rfl

theorem code_exact {code : Nat} (h : code ≤ infinity) : (exact (units code)).code = code := by
  rw [exact_eq, code_ofCoefficient, ten_pow, ← Binary64.unitsPerOne_eq,
    Binary64.nearest_mul (Nat.pow_pos (by decide)), Binary64.nearest_units h]

/-- The first number of a range that yields something. -/
theorem exists_first {α : Type} {found : Nat → Option α} {count : Nat} {result : α}
    (h : (List.range count).findSome? found = some result) :
    ∃ index < count, found index = some result ∧ ∀ earlier < index, found earlier = none := by
  induction count with
  | zero => cases h
  | succ count ih =>
      rw [List.range_succ, List.findSome?_append] at h
      cases hbefore : (List.range count).findSome? found with
      | some other =>
          rw [hbefore] at h
          obtain rfl : other = result := Option.some.inj h
          obtain ⟨index, hlt, hfound, hearlier⟩ := ih hbefore
          exact ⟨index, Nat.lt_succ_of_lt hlt, hfound, hearlier⟩
      | none =>
          rw [hbefore] at h
          refine ⟨count, Nat.lt_succ_self count, by simpa using h, fun earlier hlt => ?_⟩
          exact List.findSome?_eq_none_iff.1 hbefore earlier (List.mem_range.2 hlt)

theorem shortest_zero : shortest 0 = ⟨['0'], []⟩ := if_pos rfl

/-- The numbers with so many digits more than one that denote the double. -/
def Denotes (code extra coefficient : Nat) : Prop :=
  coefficient ∈ neighbours (units code) (decimalOrder (units code) - 1 - (extra : Int)) ∧
    scaledCode coefficient (decimalOrder (units code) - 1 - (extra : Int)) = code

/-- The shortest numeral is the first that denotes the double, or has all its digits. -/
theorem shortest_cases {code : Nat} (hpos : code ≠ 0) :
    (∃ extra coefficient, Denotes code extra coefficient ∧
      (∀ fewer < extra, ∀ other, ¬ Denotes code fewer other) ∧
      shortest code =
        ofScaled coefficient (decimalOrder (units code) - 1 - (extra : Int))) ∨
    shortest code = exact (units code) := by
  rw [shortest, if_neg hpos]
  simp only []
  cases hfound : (List.range 17).findSome? _ with
  | none => exact .inr rfl
  | some numeral =>
      left
      obtain ⟨extra, -, hsome, hearlier⟩ := exists_first hfound
      obtain ⟨coefficient, hmem, hdenotes⟩ := List.exists_of_findSome?_eq_some hsome
      split at hdenotes
      · rename_i hcode
        refine ⟨extra, coefficient, ⟨hmem, hcode⟩, ?_, (Option.some.inj hdenotes).symm⟩
        rintro fewer hfewer other ⟨hother, hcodeOther⟩
        have hnone := List.findSome?_eq_none_iff.1 (hearlier fewer hfewer) other hother
        rw [if_pos hcodeOther] at hnone
        cases hnone
      · cases hdenotes

/-- The shortest numeral of a finite double denotes it. -/
theorem code_shortest {code : Nat} (h : code < infinity) : (shortest code).code = code := by
  by_cases hzero : code = 0
  · rw [hzero, shortest_zero]
    rfl
  · rcases shortest_cases hzero with ⟨extra, coefficient, ⟨-, hcode⟩, -, hshortest⟩ | hshortest
    · have hfinite :
          scaledCode coefficient (decimalOrder (units code) - 1 - (extra : Int)) < infinity := by
        rw [hcode]
        exact h
      rw [hshortest, code_ofScaled hfinite, hcode]
    · rw [hshortest, code_exact (Nat.le_of_lt h)]

theorem wellFormed_ofScaled (coefficient : Nat) (exponent : Int) :
    (ofScaled coefficient exponent).WellFormed := by
  cases exponent <;> exact wellFormed_ofCoefficient _ _

theorem wellFormed_shortest (code : Nat) : (shortest code).WellFormed := by
  by_cases hzero : code = 0
  · rw [hzero, shortest_zero]
    refine ⟨List.cons_ne_nil _ _, fun c hc => ?_, fun c hc => by cases hc⟩
    rw [List.mem_singleton.1 hc]
    rfl
  · rcases shortest_cases hzero with ⟨_, _, _, _, hshortest⟩ | hshortest
    · rw [hshortest]
      exact wellFormed_ofScaled _ _
    · rw [hshortest]
      exact wellFormed_ofCoefficient _ _

/-- A whole number is found among its own neighbours. -/
theorem denotes_whole {code whole : Nat} (h : code ≤ infinity)
    (hunits : units code = whole * unitsPerOne) {extra : Nat}
    (hextra : decimalOrder (units code) - 1 - (extra : Int) = 0) : Denotes code extra whole := by
  have hcode : scaledCode whole 0 = code := by
    have hround := scaledCode_fraction whole 0
    rw [Int.natCast_zero, Int.neg_zero, Nat.pow_zero] at hround
    rw [hround, ← Binary64.nearest_mul Binary64.unitsPerOne_pos, Nat.one_mul, ← hunits,
      Binary64.nearest_units h]
  have hneighbours : neighbours (units code) 0 = [whole, whole + 1] := by
    have hpos := Binary64.unitsPerOne_pos
    rw [hunits]
    simp only [neighbours, Int.neg_zero, Int.toNat_zero, Nat.pow_eq, Nat.pow_zero, Nat.mul_one,
      Nat.mul_div_cancel _ hpos, Nat.mul_mod_left, Nat.mul_zero]
    exact if_pos hpos
  rw [Denotes, hextra, hneighbours]
  exact ⟨List.mem_cons_self, hcode⟩

theorem decimalOrder_pos {whole : Nat} (hpos : 0 < whole) :
    0 < decimalOrder (whole * unitsPerOne) := by
  have hcount : whole * unitsPerOne * 10 ^ 324 / unitsPerOne = whole * 10 ^ 324 := by
    rw [Nat.mul_right_comm, Nat.mul_div_cancel _ Binary64.unitsPerOne_pos]
  have hlength : ¬ (Nat.toDigits 10 (whole * 10 ^ 324)).length ≤ 324 := by
    rw [Nat.length_toDigits_le_iff (by decide) (by decide)]
    exact Nat.not_lt.2 (Nat.le_mul_of_pos_left _ hpos)
  rw [decimalOrder, Nat.pow_eq, hcount]
  omega

theorem fraction_ofScaled (coefficient : Nat) {exponent : Int} (h : 0 ≤ exponent) :
    (ofScaled coefficient exponent).fraction = [] := by
  obtain ⟨natural, rfl⟩ := Int.eq_ofNat_of_zero_le h
  rfl

theorem fraction_ofCoefficient {coefficient places : Nat} (hpos : 0 < places)
    (h : 10 ^ places ∣ coefficient) : (ofCoefficient coefficient places).fraction = [] := by
  have hfraction : (ofCoefficient coefficient places).fraction =
      (placesOf coefficient places).rdropWhile (· = '0') := if_neg (Nat.ne_of_gt hpos)
  rw [hfraction, List.rdropWhile_eq_nil_iff, placesOf, Nat.mod_eq_zero_of_dvd h,
    Nat.toDigits_zero]
  intro c hc
  rcases List.mem_append.1 hc with hzero | hzero
  · exact decide_eq_true (List.eq_of_mem_replicate hzero)
  · exact decide_eq_true (List.mem_singleton.1 hzero)

/-- The shortest numeral of a whole number has no fraction. -/
theorem fraction_shortest {code : Nat} (h : code ≤ infinity) (hwhole : unitsPerOne ∣ units code) :
    (shortest code).fraction = [] := by
  by_cases hzero : code = 0
  · rw [hzero, shortest_zero]
  · obtain ⟨whole, hunits⟩ := hwhole
    rw [Nat.mul_comm] at hunits
    rcases shortest_cases hzero with ⟨extra, coefficient, -, hfirst, hshortest⟩ | hshortest
    · rw [hshortest]
      apply fraction_ofScaled
      by_contra hnegative
      have hpos : 0 < whole := by
        rw [Nat.pos_iff_ne_zero]
        rintro rfl
        apply hzero
        rw [← Binary64.nearest_units h, hunits, Nat.zero_mul]
        exact Binary64.nearest_eq_zero (by simpa using Binary64.unitsPerOne_pos)
      have horder : 0 < decimalOrder (units code) := hunits ▸ decimalOrder_pos hpos
      exact hfirst (decimalOrder (units code) - 1).toNat (by omega) whole
        (denotes_whole h hunits (by omega))
    · rw [hshortest, exact_eq]
      apply fraction_ofCoefficient (by decide)
      rw [ten_pow, ← Binary64.unitsPerOne_eq, hunits, Nat.mul_assoc]
      exact Nat.dvd_mul_left _ _

end Formula.Numeral
