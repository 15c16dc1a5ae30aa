/-
The double nearest to a number.  No other double is nearer, and where one is as near the code
of the nearest is even; there is only one such double, and rounding a quotient finds it.
-/
import Formula.Proofs.Number.Rounding
import Mathlib.Algebra.Order.Field.Basic
import Mathlib.Algebra.Order.Field.Rat
import Mathlib.Tactic.Linarith

namespace Formula.Binary64

/-- The number that the code of a double stands for: below the first power of two that has all
its bits a multiple of 2 ^ -1074, and from there on a significand of 53 bits times a power of two.
Infinity counts as the number one step above the largest finite one. -/
def magnitude (code : Nat) : ℚ :=
  if code / 2 ^ 52 = 0 then (code % 2 ^ 52 : ℕ) * 2 ^ (-1074 : ℤ)
  else (2 ^ 52 + code % 2 ^ 52 : ℕ) * 2 ^ ((code / 2 ^ 52 : ℕ) - 1075 : ℤ)

/-- No double is nearer to the number, and one that is as near gives way to an even code. -/
structure IsNearest (number : ℚ) (code : Nat) : Prop where
  le_infinity : code ≤ infinity
  nearest : ∀ other ≤ infinity, |magnitude code - number| ≤ |magnitude other - number|
  even : ∀ other ≤ infinity, other ≠ code →
    |magnitude other - number| = |magnitude code - number| → code % 2 = 0

theorem magnitude_eq (code : Nat) : magnitude code = units code / unitsPerOne := by
  have hone : (unitsPerOne : ℚ) = 2 ^ (1074 : ℤ) := by
    rw [unitsPerOne_eq, Nat.cast_pow, Nat.cast_ofNat, zpow_ofNat]
  unfold magnitude units
  simp only [Nat.pow_eq, hone]
  by_cases hexponent : code / 2 ^ 52 = 0
  · rw [if_pos hexponent, if_pos hexponent, zpow_neg, div_eq_mul_inv]
  · obtain ⟨exponent, heq⟩ := Nat.exists_eq_succ_of_ne_zero hexponent
    have hpower : ((exponent + 1 : ℕ) : ℤ) - 1075 = exponent - 1074 := by omega
    rw [if_neg hexponent, if_neg hexponent, heq, Nat.succ_eq_add_one, Nat.add_sub_cancel, hpower,
      zpow_sub₀ two_ne_zero, zpow_natCast, Nat.cast_mul, Nat.cast_pow, Nat.cast_ofNat,
      mul_div_assoc]

/-! The grid of the doubles. -/

/-- A code is a step with a significand on it; the significands of the first step may be small. -/
def OnGrid (step significand : Nat) : Prop :=
  significand ≤ 2 ^ 53 ∧ (step = 0 ∨ 2 ^ 52 ≤ significand)

theorem exists_onGrid (code : Nat) :
    ∃ step significand, code = step * 2 ^ 52 + significand ∧ significand < 2 ^ 53 ∧
      OnGrid step significand := by
  by_cases hsmall : code < 2 ^ 52
  · exact ⟨0, code, by omega, by omega, by omega, .inl rfl⟩
  · exact ⟨code / 2 ^ 52 - 1, 2 ^ 52 + code % 2 ^ 52, by omega, by omega, by omega,
      .inr (by omega)⟩

theorem OnGrid.units_eq {step significand : Nat} (h : OnGrid step significand) :
    units (step * 2 ^ 52 + significand) = significand * 2 ^ step := by
  obtain ⟨hhigh, hlow⟩ := h
  by_cases hsmall : significand < 2 ^ 52
  · obtain rfl : step = 0 := hlow.resolve_right (Nat.not_le_of_lt hsmall)
    rw [Nat.zero_mul, Nat.zero_add, units_of_lt hsmall, Nat.pow_zero, Nat.mul_one]
  · exact units_step (Nat.le_of_not_lt hsmall) hhigh

/-- The next code lies one step up, or more. -/
theorem OnGrid.succ_mul_le {step significand : Nat} (h : OnGrid step significand) :
    (significand + 1) * 2 ^ step ≤ units (step * 2 ^ 52 + significand + 1) := by
  obtain ⟨hhigh, hlow⟩ := h
  rcases Nat.lt_or_eq_of_le hhigh with hlt | rfl
  · have hnext : OnGrid step (significand + 1) := ⟨hlt, hlow.imp_right Nat.le_succ_of_le⟩
    rw [Nat.add_assoc, hnext.units_eq]
  · have hnext : OnGrid (step + 1) (2 ^ 52 + 1) := ⟨by omega, .inr (by omega)⟩
    have hcode : step * 2 ^ 52 + 2 ^ 53 + 1 = (step + 1) * 2 ^ 52 + (2 ^ 52 + 1) := by omega
    have hpower : 2 ^ (step + 1) = 2 * 2 ^ step := Nat.pow_succ'
    rw [hcode, hnext.units_eq, hpower, ← Nat.mul_assoc]
    exact Nat.mul_le_mul_right _ (by decide)

theorem units_lt_succ (code : Nat) : units code < units (code + 1) := by
  obtain ⟨step, significand, rfl, _, hgrid⟩ := exists_onGrid code
  refine Nat.lt_of_lt_of_le ?_ hgrid.succ_mul_le
  rw [hgrid.units_eq]
  exact Nat.mul_lt_mul_of_pos_right (Nat.lt_succ_self _) (Nat.two_pow_pos step)

theorem units_strictMono : StrictMono units := strictMono_nat_of_lt_succ units_lt_succ

theorem magnitude_strictMono : StrictMono magnitude := by
  intro code other hlt
  rw [magnitude_eq, magnitude_eq]
  have hunits : (units code : ℚ) < units other := Nat.cast_lt.2 (units_strictMono hlt)
  exact div_lt_div_of_pos_right hunits (Nat.cast_pos.2 unitsPerOne_pos)

/-- Two codes that are equally near would both be even, and the one between them nearer. -/
theorem IsNearest.unique {number : ℚ} {code other : Nat} (h : IsNearest number code)
    (hother : IsNearest number other) : code = other := by
  wlog hlt : code < other generalizing code other
  · by_contra hne
    exact hne (this hother h (by omega)).symm
  have hsame := le_antisymm (h.nearest other hother.le_infinity)
    (hother.nearest code h.le_infinity)
  have heven := h.even other hother.le_infinity (Nat.ne_of_gt hlt) hsame.symm
  have hotherEven := hother.even code h.le_infinity (Nat.ne_of_lt hlt) hsame
  have hbetween : code + 1 < other := by omega
  have hbelow := magnitude_strictMono (Nat.lt_succ_self code)
  have habove := magnitude_strictMono hbetween
  have hmiddle : magnitude code - number = -(magnitude other - number) := by
    refine (abs_eq_abs.1 hsame).resolve_left fun heq => ?_
    linarith
  have hnearer : |magnitude (code + 1) - number| < -(magnitude code - number) :=
    abs_lt.2 ⟨by linarith, by linarith⟩
  have hnearest := h.nearest (code + 1) (Nat.le_trans (Nat.le_of_lt hbetween) hother.le_infinity)
  exact absurd (neg_le_abs _) (not_le_of_gt (lt_of_le_of_lt hnearest hnearer))

/-! Rounding a quotient. -/

/-- A whole number is half a denominator away from a quotient at most, and even if it is just as
much. -/
structure RoundsTo (numerator denominator quotient : Nat) : Prop where
  above : 2 * (quotient * denominator) ≤ 2 * numerator + denominator
  below : 2 * numerator ≤ 2 * (quotient * denominator) + denominator
  even : 2 * (quotient * denominator) = 2 * numerator + denominator ∨
    2 * numerator = 2 * (quotient * denominator) + denominator → quotient % 2 = 0

theorem roundsTo_roundQuotient (numerator : Nat) {denominator : Nat} (hpos : 0 < denominator) :
    RoundsTo numerator denominator (roundQuotient numerator denominator) := by
  have hsplit := Nat.div_add_mod' numerator denominator
  have hrest := Nat.mod_lt numerator hpos
  simp only [roundQuotient]
  generalize numerator / denominator = floor at *
  generalize numerator % denominator = rest at *
  have hsucc : (floor + 1) * denominator = floor * denominator + denominator :=
    Nat.succ_mul floor denominator
  split
  · constructor <;> omega
  · split
    · constructor <;> rw [hsucc] <;> omega
    · rcases Nat.mod_two_eq_zero_or_one floor with heven | hodd
      · rw [heven, Nat.add_zero]
        constructor <;> omega
      · rw [hodd]
        constructor <;> rw [hsucc] <;> omega

/-- The step is chosen so that the significand has its bits, or has no need of them. -/
theorem quotient_onGrid (scaled : Nat) {denominator step : Nat} (hpos : 0 < denominator)
    (hstep : step = (scaled / denominator).log2 - 52) :
    OnGrid step (roundQuotient scaled (denominator * 2 ^ step)) ∧
      (step = 0 ∨ 2 ^ 52 * (denominator * 2 ^ step) ≤ scaled) := by
  obtain ⟨hlow, hhigh⟩ := roundQuotient_bounds scaled (denominator * 2 ^ step)
  have hpower := Nat.two_pow_pos step
  have hlt : scaled / (denominator * 2 ^ step) < 2 ^ 53 := by
    rw [← Nat.div_div_eq_div_mul, Nat.div_lt_iff_lt_mul hpower, ← Nat.pow_add]
    exact Nat.lt_of_lt_of_le Nat.lt_log2_self (Nat.pow_le_pow_right (by decide) (by omega))
  by_cases hzero : step = 0
  · exact ⟨⟨Nat.le_trans hhigh hlt, .inl hzero⟩, .inl hzero⟩
  · have hne : scaled / denominator ≠ 0 := by
      intro hdiv
      rw [hdiv, Nat.log2_zero] at hstep
      omega
    have hlog : 52 + step = (scaled / denominator).log2 := by omega
    have hle : 2 ^ 52 ≤ scaled / (denominator * 2 ^ step) := by
      rw [← Nat.div_div_eq_div_mul, Nat.le_div_iff_mul_le hpower, ← Nat.pow_add, hlog]
      exact Nat.log2_self_le hne
    have hscaled := (Nat.le_div_iff_mul_le (Nat.mul_pos hpos hpower)).1 hle
    exact ⟨⟨Nat.le_trans hhigh hlt, .inr (Nat.le_trans hle hlow)⟩, .inr hscaled⟩

/-- How far a double is from a quotient, with everything multiplied by the denominators. -/
def distance (numerator denominator code : Nat) : Nat :=
  ((units code * denominator : Nat) - (numerator * unitsPerOne : Nat) : Int).natAbs

theorem nearer_of_between {own other target : Nat} (hlt : other < own) (hle : own ≤ target) :
    (own - target : Int).natAbs < (other - target : Int).natAbs := by
  omega

/-- A rounded quotient is nearer than what is a whole gap off, or lies beyond it. -/
theorem RoundsTo.nearer_of_apart {target gap quotient other : Nat}
    (h : RoundsTo target gap quotient)
    (hapart : other + gap ≤ quotient * gap ∨ quotient * gap + gap ≤ other ∨
      other < quotient * gap ∧ quotient * gap ≤ target) :
    ((quotient * gap : Nat) - target : Int).natAbs < (other - target : Int).natAbs ∨
      ((quotient * gap : Nat) - target : Int).natAbs = (other - target : Int).natAbs ∧
        quotient % 2 = 0 := by
  obtain ⟨habove, hbelow, heven⟩ := h
  generalize quotient * gap = own at *
  rcases Nat.lt_or_ge (own - target : Int).natAbs (other - target : Int).natAbs with hlt | hge
  · exact .inl hlt
  · exact .inr ⟨by omega, heven (by omega)⟩

theorem abs_magnitude_sub (numerator : Nat) {denominator : Nat} (hpos : 0 < denominator)
    (code : Nat) : |magnitude code - (numerator / denominator : ℚ)| =
      distance numerator denominator code / (unitsPerOne * denominator) := by
  have hdenominator : (0 : ℚ) < denominator := Nat.cast_pos.2 hpos
  have hone : (0 : ℚ) < unitsPerOne := Nat.cast_pos.2 unitsPerOne_pos
  rw [magnitude_eq, div_sub_div _ _ hone.ne' hdenominator.ne', abs_div,
    abs_of_pos (mul_pos hone hdenominator), distance, Nat.cast_natAbs]
  push_cast
  rw [mul_comm (unitsPerOne : ℚ) numerator]

theorem units_infinity : units infinity = 2 ^ 52 * 2 ^ 2046 := by
  have hgrid : OnGrid 2046 (2 ^ 52) := ⟨by decide, .inr (Nat.le_refl _)⟩
  exact hgrid.units_eq

theorem units_infinity_le_step {step : Nat} (h : 2046 ≤ step) :
    units infinity ≤ 2 ^ 52 * 2 ^ step := by
  have hmono : ∀ {less : Nat}, less ≤ step → 2 ^ 52 * 2 ^ less ≤ 2 ^ 52 * 2 ^ step :=
    fun hle => Nat.mul_le_mul_left _ (Nat.pow_le_pow_right Nat.zero_lt_two hle)
  exact Nat.le_trans (Nat.le_of_eq units_infinity) (hmono h)

/-- Every other double is a step away at least, or lies below a significand that lies below the
quotient. -/
theorem OnGrid.apart {step significand : Nat} (h : OnGrid step significand)
    {scaled denominator : Nat} (hpos : 0 < denominator)
    (hlow : step = 0 ∨ 2 ^ 52 * (denominator * 2 ^ step) ≤ scaled) {other : Nat}
    (hne : other ≠ step * 2 ^ 52 + significand) :
    units other * denominator + denominator * 2 ^ step ≤
        significand * (denominator * 2 ^ step) ∨
      significand * (denominator * 2 ^ step) + denominator * 2 ^ step ≤
        units other * denominator ∨
      units other * denominator < significand * (denominator * 2 ^ step) ∧
        significand * (denominator * 2 ^ step) ≤ scaled := by
  have hswap : ∀ count, count * 2 ^ step * denominator = count * (denominator * 2 ^ step) :=
    fun count => by rw [Nat.mul_assoc, Nat.mul_comm (2 ^ step)]
  rcases Nat.lt_or_gt_of_ne hne with hbelow | habove
  · by_cases hfirst : step ≠ 0 ∧ significand = 2 ^ 52
    · have hlt := units_strictMono hbelow
      rw [h.units_eq] at hlt
      have hscaled := hlow.resolve_left hfirst.1
      rw [← hfirst.2] at hscaled
      rw [← hswap]
      exact .inr (.inr ⟨Nat.mul_lt_mul_of_pos_right hlt hpos, by rwa [hswap]⟩)
    · obtain ⟨before, rfl⟩ : ∃ before, significand = before + 1 :=
        ⟨significand - 1, by have := h.2; omega⟩
      have hbefore : OnGrid step before := ⟨by have := h.1; omega, by have := h.2; omega⟩
      have hle : units other ≤ units (step * 2 ^ 52 + before) :=
        units_strictMono.monotone (by omega)
      rw [hbefore.units_eq] at hle
      have hscaled := Nat.mul_le_mul_right denominator hle
      rw [hswap] at hscaled
      rw [Nat.succ_mul]
      exact .inl (Nat.add_le_add_right hscaled _)
  · have hle := Nat.le_trans h.succ_mul_le (units_strictMono.monotone habove)
    have hscaled := Nat.mul_le_mul_right denominator hle
    rw [hswap, Nat.succ_mul] at hscaled
    exact .inr (.inl hscaled)

/-- A quotient in units of 2 ^ -1074 is rounded to a code of the grid, or to infinity beyond it. -/
theorem exists_rounded (numerator : Nat) {denominator : Nat} (hpos : 0 < denominator) :
    ∃ step significand, OnGrid step significand ∧
      (step = 0 ∨ 2 ^ 52 * (denominator * 2 ^ step) ≤ numerator * unitsPerOne) ∧
      RoundsTo (numerator * unitsPerOne) (denominator * 2 ^ step) significand ∧
      nearest numerator denominator = min (step * 2 ^ 52 + significand) infinity := by
  obtain ⟨step, hstep⟩ :
      ∃ step, step = (numerator * unitsPerOne / denominator).log2 - 52 := ⟨_, rfl⟩
  obtain ⟨hgrid, hlow⟩ := quotient_onGrid (numerator * unitsPerOne) hpos hstep
  have hpower : 0 < denominator * 2 ^ step := Nat.mul_pos hpos (Nat.two_pow_pos step)
  refine ⟨step, _, hgrid, hlow, roundsTo_roundQuotient _ hpower, ?_⟩
  rw [nearest, ← hstep]
  simp only [Nat.pow_eq]

/-- A quotient that is rounded beyond the grid is no less than what infinity counts as. -/
theorem OnGrid.units_infinity_le {step significand : Nat} (h : OnGrid step significand)
    (hbeyond : infinity < step * 2 ^ 52 + significand) {scaled denominator : Nat}
    (hlow : step = 0 ∨ 2 ^ 52 * (denominator * 2 ^ step) ≤ scaled) :
    units infinity * denominator ≤ scaled := by
  have hinfinity : infinity = 2047 * 2 ^ 52 := rfl
  have hlarge : 2046 ≤ step := by
    have := h.1
    omega
  calc units infinity * denominator ≤ 2 ^ 52 * 2 ^ step * denominator :=
        Nat.mul_le_mul_right _ (units_infinity_le_step hlarge)
    _ = 2 ^ 52 * (denominator * 2 ^ step) := by rw [Nat.mul_assoc, Nat.mul_comm (2 ^ step)]
    _ ≤ scaled := hlow.resolve_left (by omega)

/-- Every other double is further away, or as far if the code of the rounded quotient is even. -/
theorem nearest_wins (numerator : Nat) {denominator : Nat} (hpos : 0 < denominator) {other : Nat}
    (hother : other ≤ infinity) (hne : other ≠ nearest numerator denominator) :
    distance numerator denominator (nearest numerator denominator) <
        distance numerator denominator other ∨
      distance numerator denominator (nearest numerator denominator) =
          distance numerator denominator other ∧
        nearest numerator denominator % 2 = 0 := by
  obtain ⟨step, significand, hgrid, hlow, hrounds, hnearest⟩ := exists_rounded numerator hpos
  rcases Nat.lt_or_ge infinity (step * 2 ^ 52 + significand) with hbeyond | hfinite
  · rw [Nat.min_eq_right (Nat.le_of_lt hbeyond)] at hnearest
    rw [hnearest] at hne ⊢
    have hunits : units other * denominator < units infinity * denominator :=
      Nat.mul_lt_mul_of_pos_right (units_strictMono (Nat.lt_of_le_of_ne hother hne)) hpos
    exact .inl (nearer_of_between hunits (hgrid.units_infinity_le hbeyond hlow))
  · rw [Nat.min_eq_left hfinite] at hnearest
    rw [hnearest] at hne ⊢
    have hown : units (step * 2 ^ 52 + significand) * denominator =
        significand * (denominator * 2 ^ step) := by
      rw [hgrid.units_eq, Nat.mul_assoc, Nat.mul_comm (2 ^ step)]
    have heven : (step * 2 ^ 52 + significand) % 2 = significand % 2 := by omega
    rw [heven, distance, distance, hown]
    exact hrounds.nearer_of_apart (hgrid.apart hpos hlow hne)

/-- Rounding finds the double that is nearest to a quotient. -/
theorem isNearest_nearest (numerator : Nat) {denominator : Nat} (hpos : 0 < denominator) :
    IsNearest (numerator / denominator) (nearest numerator denominator) := by
  have hscale : (0 : ℚ) < unitsPerOne * denominator :=
    mul_pos (Nat.cast_pos.2 unitsPerOne_pos) (Nat.cast_pos.2 hpos)
  constructor
  · exact nearest_le_infinity numerator denominator
  · intro other hother
    rw [abs_magnitude_sub numerator hpos, abs_magnitude_sub numerator hpos,
      div_le_div_iff_of_pos_right hscale, Nat.cast_le]
    by_cases hne : other = nearest numerator denominator
    · rw [hne]
    · rcases nearest_wins numerator hpos hother hne with hlt | ⟨heq, _⟩
      · exact Nat.le_of_lt hlt
      · exact Nat.le_of_eq heq
  · intro other hother hne hsame
    rw [abs_magnitude_sub numerator hpos, abs_magnitude_sub numerator hpos,
      div_left_inj' hscale.ne', Nat.cast_inj] at hsame
    rcases nearest_wins numerator hpos hother hne with hlt | ⟨_, heven⟩
    · rw [hsame] at hlt
      exact absurd hlt (Nat.lt_irrefl _)
    · exact heven

end Formula.Binary64
