/-
Rounding to the nearest double.  A quotient is rounded alike however it is written,
what some double holds is not rounded at all, and whole numbers are rounded to whole
numbers.
-/
import Formula.Number.Binary64
import Mathlib.Tactic.Ring

namespace Formula.Binary64

theorem unitsPerOne_eq : unitsPerOne = 2 ^ 1074 := Nat.pow_eq

theorem unitsPerOne_pos : 0 < unitsPerOne := by
  rw [unitsPerOne_eq]
  apply Nat.two_pow_pos

theorem roundQuotient_mul {factor : Nat} (hfactor : 0 < factor) (numerator denominator : Nat) :
    roundQuotient (numerator * factor) (denominator * factor) =
      roundQuotient numerator denominator := by
  have hlt : ∀ left right : Nat, left * factor < right * factor ↔ left < right :=
    fun left right => Nat.mul_lt_mul_right hfactor
  simp only [roundQuotient, Nat.mul_div_mul_right _ _ hfactor, Nat.mul_mod_mul_right,
    ← Nat.mul_assoc, hlt]

theorem nearest_mul {factor : Nat} (hfactor : 0 < factor) (numerator denominator : Nat) :
    nearest (numerator * factor) (denominator * factor) = nearest numerator denominator := by
  have hscaled : numerator * factor * unitsPerOne = numerator * unitsPerOne * factor :=
    Nat.mul_right_comm _ _ _
  have hdenominator : ∀ step, denominator * factor * 2 ^ step = denominator * 2 ^ step * factor :=
    fun step => Nat.mul_right_comm _ _ _
  simp only [nearest, Nat.pow_eq, hscaled, hdenominator, Nat.mul_div_mul_right _ _ hfactor,
    roundQuotient_mul hfactor]

theorem roundQuotient_exact {denominator : Nat} (hpos : 0 < denominator) (count : Nat) :
    roundQuotient (count * denominator) denominator = count := by
  simp [roundQuotient, Nat.mul_div_cancel _ hpos, hpos]

/-- Less than half a unit is rounded to nothing. -/
theorem nearest_eq_zero {numerator denominator : Nat}
    (h : 2 * (numerator * unitsPerOne) < denominator) : nearest numerator denominator = 0 := by
  have hdiv : numerator * unitsPerOne / denominator = 0 := Nat.div_eq_of_lt (by omega)
  have hmod : numerator * unitsPerOne % denominator = numerator * unitsPerOne :=
    Nat.mod_eq_of_lt (by omega)
  have hstep : (0 : Nat).log2 - 52 = 0 := by simp
  simp only [nearest, Nat.pow_eq, hdiv, hstep, Nat.pow_zero, Nat.mul_one]
  simp [roundQuotient, hdiv, hmod, h]

theorem nearest_le_infinity (numerator denominator : Nat) :
    nearest numerator denominator ≤ infinity := Nat.min_le_right _ _

/-- A significand of 53 bits, or the first that has one more. -/
theorem units_step {step significand : Nat} (hlow : 2 ^ 52 ≤ significand)
    (hhigh : significand ≤ 2 ^ 53) :
    units (step * 2 ^ 52 + significand) = significand * 2 ^ step := by
  rcases Nat.lt_or_eq_of_le hhigh with hlt | rfl
  · have hexponent : (step * 2 ^ 52 + significand) / 2 ^ 52 = step + 1 := by omega
    have hfraction : 2 ^ 52 + (step * 2 ^ 52 + significand) % 2 ^ 52 = significand := by omega
    simp only [units, Nat.pow_eq, hexponent, hfraction, Nat.add_sub_cancel]
    exact if_neg (Nat.succ_ne_zero step)
  · have hexponent : (step * 2 ^ 52 + 2 ^ 53) / 2 ^ 52 = step + 1 + 1 := by omega
    have hfraction : (step * 2 ^ 52 + 2 ^ 53) % 2 ^ 52 = 0 := by omega
    simp only [units, Nat.pow_eq, hexponent, hfraction, Nat.add_sub_cancel, Nat.add_zero]
    rw [if_neg (Nat.succ_ne_zero _)]
    ring

theorem units_of_lt {code : Nat} (h : code < 2 ^ 52) : units code = code := by
  have hexponent : code / 2 ^ 52 = 0 := by omega
  simp only [units, Nat.pow_eq, hexponent, if_true]
  exact Nat.mod_eq_of_lt h

theorem log2_mul_two_pow {count : Nat} (hne : count ≠ 0) (step : Nat) :
    (count * 2 ^ step).log2 = count.log2 + step := by
  obtain ⟨hlow, hhigh⟩ := (Nat.log2_eq_iff hne).1 rfl
  rw [Nat.log2_eq_iff (Nat.mul_ne_zero hne (Nat.ne_of_gt (Nat.two_pow_pos step)))]
  constructor
  · rw [Nat.pow_add]
    exact Nat.mul_le_mul_right _ hlow
  · rw [Nat.add_right_comm, Nat.pow_add]
    exact Nat.mul_lt_mul_of_pos_right hhigh (Nat.two_pow_pos step)

/-- What a double holds is rounded to this double. -/
theorem nearest_units {code : Nat} (h : code ≤ infinity) :
    nearest (units code) unitsPerOne = code := by
  have hscaled : units code * unitsPerOne / unitsPerOne = units code :=
    Nat.mul_div_cancel _ unitsPerOne_pos
  by_cases hsmall : code < 2 ^ 52
  · have hlog : code.log2 - 52 = 0 := by
      by_cases hzero : code = 0
      · simp [hzero]
      · have hlt := (Nat.log2_lt hzero).2 hsmall
        omega
    rw [units_of_lt hsmall] at hscaled ⊢
    simp only [nearest, Nat.pow_eq, hscaled, hlog, Nat.pow_zero, Nat.mul_one, Nat.zero_mul,
      Nat.zero_add, roundQuotient_exact unitsPerOne_pos]
    exact Nat.min_eq_left h
  · obtain ⟨step, significand, rfl, hlow, hhigh⟩ : ∃ step significand,
        code = step * 2 ^ 52 + significand ∧ 2 ^ 52 ≤ significand ∧ significand < 2 ^ 53 :=
      ⟨code / 2 ^ 52 - 1, 2 ^ 52 + code % 2 ^ 52, by omega, by omega, by omega⟩
    have hlogSignificand : significand.log2 = 52 :=
      (Nat.log2_eq_iff (by omega)).2 ⟨hlow, hhigh⟩
    rw [units_step hlow (Nat.le_of_lt hhigh)] at hscaled ⊢
    have hlog : (significand * 2 ^ step).log2 - 52 = step := by
      rw [log2_mul_two_pow (by omega), hlogSignificand]
      omega
    have hround : roundQuotient (significand * 2 ^ step * unitsPerOne) (unitsPerOne * 2 ^ step) =
        significand := by
      rw [Nat.mul_assoc, Nat.mul_comm (2 ^ step)]
      exact roundQuotient_exact (Nat.mul_pos unitsPerOne_pos (Nat.two_pow_pos step)) _
    simp only [nearest, Nat.pow_eq, hscaled, hlog, hround]
    exact Nat.min_eq_left h

theorem roundQuotient_bounds (numerator denominator : Nat) :
    numerator / denominator ≤ roundQuotient numerator denominator ∧
      roundQuotient numerator denominator ≤ numerator / denominator + 1 := by
  simp only [roundQuotient]
  split
  · omega
  · split <;> omega

theorem log2_mul_unitsPerOne {count : Nat} (hne : count ≠ 0) :
    (count * unitsPerOne).log2 = count.log2 + 1074 := by
  rw [unitsPerOne_eq]
  apply log2_mul_two_pow hne

theorem two_pow_mul_unitsPerOne (step : Nat) : 2 ^ (step + 1074) = 2 ^ step * unitsPerOne := by
  rw [unitsPerOne_eq]
  apply Nat.pow_add

theorem unitsPerOne_dvd_two_pow {step : Nat} (h : 1074 ≤ step) : unitsPerOne ∣ 2 ^ step := by
  rw [unitsPerOne_eq]
  apply Nat.pow_dvd_pow
  exact h

theorem two_pow_dvd_unitsPerOne {step : Nat} (h : step ≤ 1074) : 2 ^ step ∣ unitsPerOne := by
  rw [unitsPerOne_eq]
  apply Nat.pow_dvd_pow
  exact h

/-- A quotient by a power of two that leaves a significand. -/
theorem roundQuotient_two_pow_bounds {scaled step : Nat} (hlog : scaled.log2 = 52 + step) :
    2 ^ 52 ≤ roundQuotient scaled (2 ^ step) ∧ roundQuotient scaled (2 ^ step) ≤ 2 ^ 53 := by
  have hne : scaled ≠ 0 := by
    rintro rfl
    rw [Nat.log2_zero] at hlog
    omega
  obtain ⟨hleast, hgreatest⟩ := (Nat.log2_eq_iff hne).1 hlog
  obtain ⟨hlow, hhigh⟩ := roundQuotient_bounds scaled (2 ^ step)
  have hleastQuotient : 2 ^ 52 ≤ scaled / 2 ^ step := by
    rw [Nat.le_div_iff_mul_le (Nat.two_pow_pos step), ← Nat.pow_add]
    exact hleast
  have hgreatestQuotient : scaled / 2 ^ step < 2 ^ 53 := by
    rw [Nat.div_lt_iff_lt_mul (Nat.two_pow_pos step), ← Nat.pow_add]
    exact Nat.lt_of_lt_of_eq hgreatest (congrArg _ (by omega))
  exact ⟨Nat.le_trans hleastQuotient hlow, Nat.le_trans hhigh hgreatestQuotient⟩

theorem nearest_whole {count : Nat} (hne : count ≠ 0) :
    nearest count 1 = min ((count.log2 + 1022) * 2 ^ 52 +
      roundQuotient (count * unitsPerOne) (2 ^ (count.log2 + 1022))) infinity := by
  have hlog : (count * unitsPerOne / 1).log2 - 52 = count.log2 + 1022 := by
    rw [Nat.div_one, log2_mul_unitsPerOne hne]
    rfl
  simp only [nearest, Nat.pow_eq, hlog, Nat.one_mul]

/-- Doubles that lie apart by a fraction of one hold every whole number; those that lie
further apart are whole numbers themselves. -/
theorem unitsPerOne_dvd_significand (count step : Nat) :
    unitsPerOne ∣ roundQuotient (count * unitsPerOne) (2 ^ step) * 2 ^ step := by
  by_cases hstep : step ≤ 1074
  · obtain ⟨factor, hfactor⟩ := two_pow_dvd_unitsPerOne hstep
    have hscaled : count * unitsPerOne = count * factor * 2 ^ step := by
      rw [hfactor, Nat.mul_comm (2 ^ step), ← Nat.mul_assoc]
    rw [hscaled, roundQuotient_exact (Nat.two_pow_pos step), ← hscaled]
    exact Nat.dvd_mul_left _ _
  · exact Nat.dvd_trans (unitsPerOne_dvd_two_pow (by omega)) (Nat.dvd_mul_left _ _)

/-- A whole number is rounded to a whole number. -/
theorem unitsPerOne_dvd_units (count : Nat) : unitsPerOne ∣ units (nearest count 1) := by
  rcases Nat.eq_zero_or_pos count with rfl | hpos
  · have hzero : nearest 0 1 = 0 := nearest_eq_zero (by simp)
    rw [hzero, units_of_lt (by decide)]
    exact Nat.dvd_zero _
  · have hne : count ≠ 0 := Nat.ne_of_gt hpos
    have hlogScaled : (count * unitsPerOne).log2 = 52 + (count.log2 + 1022) := by
      rw [log2_mul_unitsPerOne hne]
      omega
    obtain ⟨hlow, hhigh⟩ := roundQuotient_two_pow_bounds hlogScaled
    rw [nearest_whole hne]
    rcases Nat.le_total ((count.log2 + 1022) * 2 ^ 52 +
      roundQuotient (count * unitsPerOne) (2 ^ (count.log2 + 1022))) infinity with
        hfinite | hinfinite
    · rw [Nat.min_eq_left hfinite, units_step hlow hhigh]
      exact unitsPerOne_dvd_significand _ _
    · have hinfinity : infinity = 2046 * 2 ^ 52 + 2 ^ 52 := rfl
      rw [Nat.min_eq_right hinfinite, hinfinity,
        units_step (Nat.le_refl (2 ^ 52)) (Nat.pow_le_pow_right (by decide) (by decide))]
      exact Nat.dvd_trans (unitsPerOne_dvd_two_pow (by decide)) (Nat.dvd_mul_left _ _)

end Formula.Binary64
