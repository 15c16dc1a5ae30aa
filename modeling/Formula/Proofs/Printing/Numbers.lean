/-
Which numbers are read back.  A number that a text can hold is written as digits, with the
separator in front of a fraction, so it is lost in two ways: the separator of a fraction may be
claimed by another class of characters, and an overflowed number is written as a name.
-/
import Formula.Proofs.Printing.RoundTrip

namespace Formula

/-- Numbers that some text holds, in whatever format. -/
def IsLiteral (value : Float) : Prop :=
  ∃ (format : NumberFormat) (source : String) (tokens : List Placed) (position : Nat),
    tokenize format source = .ok tokens ∧ ⟨.number value, position⟩ ∈ tokens

/-- Whole numbers: the units are so many times those that make one. -/
def Binary64.IsWhole (value : Float) : Prop :=
  Binary64.unitsPerOne ∣ Binary64.units (Binary64.code value)

namespace Numeral

theorem fraction_shortest_eq_nil_iff {code : Nat} (h : code < Binary64.infinity) :
    (shortest code).fraction = [] ↔ Binary64.unitsPerOne ∣ Binary64.units code := by
  refine ⟨fun hfraction => ?_, fraction_shortest (Nat.le_of_lt h)⟩
  have hwhole := unitsPerOne_dvd_code (shortest code).whole
  have heta : (⟨(shortest code).whole, []⟩ : Numeral) = shortest code := by rw [← hfraction]
  rwa [heta, code_shortest h] at hwhole

end Numeral

namespace NumberFormat

variable {format : NumberFormat}

/-- Only blanks are scanned as no token at all. -/
theorem Munches.blank_of_nil {position : Nat} {text : List Char}
    (h : format.Munches position text []) : ∀ c ∈ text, Text.isBlank c = true := by
  generalize htokens : ([] : List Placed) = tokens at h
  induction h with
  | nil => exact nofun
  | blank hblank h ih => exact List.forall_mem_cons.2 ⟨hblank, ih htokens⟩
  | mark | name | number => cases htokens

theorem munch_numeral_alone {numeral : Numeral} (h : numeral.WellFormed)
    (hseparator : numeral.fraction = [] ∨ format.reads = true) (position : Nat) :
    format.munch position (numeral.write format.decimalSeparator) =
      some [⟨.number (Binary64.ofCode false numeral.code), position⟩] := by
  have hstops : ∀ next ∈ ([] : List Char).head?, format.continues next = false := nofun
  have hmunch := munch_numeral h hseparator hstops position
  rwa [List.append_nil, munch_nil] at hmunch

/-- A separator that does not continue a numeral leaves more than one token. -/
theorem munch_numeral_ne {numeral : Numeral} (h : numeral.WellFormed)
    (hfraction : numeral.fraction ≠ [])
    (hcontinues : format.continues format.decimalSeparator = false) (position : Nat)
    (placed : Placed) :
    format.munch position (numeral.write format.decimalSeparator) ≠ some [placed] := by
  intro hmunch
  have hfront : (⟨numeral.whole, []⟩ : Numeral).WellFormed := ⟨h.whole_ne_nil, h.whole, nofun⟩
  have hends : ∀ c ∈ (format.decimalSeparator :: numeral.fraction).head?,
      format.continues c = false := fun c hc => Option.some.inj hc ▸ hcontinues
  have hwhole := munch_numeral hfront (.inl rfl) hends position
  rw [Numeral.write, if_pos rfl] at hwhole
  rw [Numeral.write, if_neg hfraction, hwhole] at hmunch
  obtain ⟨more, hmore, hplaced⟩ := Option.map_eq_some_iff.1 hmunch
  obtain rfl := (List.cons.inj hplaced).2
  obtain ⟨digit, digits, hdigits⟩ := List.exists_cons_of_ne_nil hfraction
  have hdigit : digit.isDigit = true := h.fraction digit (by simp [hdigits])
  have hblank := (munches_of_munch hmore).blank_of_nil digit (by simp [hdigits])
  rw [Text.isBlank_of_isDigit hdigit] at hblank
  cases hblank

/-- A digit for a separator joins the fraction to the whole. -/
theorem munch_joined {numeral : Numeral} (h : numeral.WellFormed)
    (hfraction : numeral.fraction ≠ []) (hdigit : format.decimalSeparator.isDigit = true)
    (position : Nat) :
    ∃ digits, format.munch position (numeral.write format.decimalSeparator) =
      some [⟨.number (Binary64.ofCode false (Numeral.code ⟨digits, []⟩)), position⟩] := by
  let joined : Numeral := ⟨numeral.whole ++ format.decimalSeparator :: numeral.fraction, []⟩
  have hjoined : joined.WellFormed := by
    refine ⟨List.append_ne_nil_of_left_ne_nil h.whole_ne_nil _, fun c hc => ?_, nofun⟩
    rcases List.mem_append.1 hc with hc | hc
    · exact h.whole c hc
    · exact (List.mem_cons.1 hc).elim (fun heq => heq ▸ hdigit) (h.fraction c)
  have hwrite : numeral.write format.decimalSeparator = joined.write format.decimalSeparator := by
    rw [Numeral.write, if_neg hfraction, Numeral.write, if_pos rfl]
  exact ⟨joined.whole, hwrite ▸ munch_numeral_alone hjoined (.inl rfl) position⟩

/-- Where a fraction is read back, its separator is read as one. -/
theorem reads_of_munch_shortest {code : Nat} (hfinite : code < Binary64.infinity)
    (hfraction : (Numeral.shortest code).fraction ≠ []) {position : Nat}
    (hmunch : format.munch position ((Numeral.shortest code).write format.decimalSeparator) =
      some [⟨.number (Binary64.ofCode false code), position⟩]) : format.reads = true := by
  have hwell := Numeral.wellFormed_shortest code
  by_cases hdigit : format.decimalSeparator.isDigit = true
  · -- the digits without a separator denote a whole number, and so would the number itself
    obtain ⟨digits, hjoined⟩ := munch_joined hwell hfraction hdigit position
    rw [hmunch] at hjoined
    have hvalue : Binary64.ofCode false code =
        Binary64.ofCode false (Numeral.code ⟨digits, []⟩) := by simpa using hjoined
    have hcode := congrArg Binary64.code hvalue
    rw [Binary64.code_ofCode (Nat.le_of_lt hfinite),
      Binary64.code_ofCode (Numeral.code_le_infinity _)] at hcode
    have hwhole := Numeral.unitsPerOne_dvd_code digits
    rw [← hcode] at hwhole
    exact absurd (Numeral.fraction_shortest (Nat.le_of_lt hfinite) hwhole) hfraction
  · by_cases hcontinues : format.continues format.decimalSeparator = true
    · exact reads_of_continues hcontinues (Bool.eq_false_iff.2 hdigit)
    · exact absurd hmunch
        (munch_numeral_ne hwell hfraction (Bool.eq_false_iff.2 hcontinues) position _)

/-- An overflowed number is read as a name. -/
theorem munch_write_infinity (position : Nat) (value : Float) :
    format.munch position (format.write (Binary64.ofCode false Binary64.infinity)) ≠
      some [⟨.number value, position⟩] := by
  have hname : Text.isName ['i', 'n', 'f'] = true := by decide
  have hyields : format.Yields [] [] := yields_nil
  obtain ⟨placed, hmunch, htokens⟩ := hyields.name hname parts_nil position
  rw [write_infinity]
  rw [List.append_nil] at hmunch
  intro hnumber
  obtain rfl := Option.some.inj (hmunch.symm.trans hnumber)
  simp at htokens

end NumberFormat

theorem tokenize_ofList_eq_ok_iff (format : NumberFormat) (text : List Char)
    (tokens : List Placed) :
    tokenize format (String.ofList text) = .ok tokens ↔ format.munch 0 text = some tokens := by
  rw [tokenize, String.toList_ofList, ← format.toOption_scan, toOption_eq_some_iff]

theorem isLiteral_of_munch {format : NumberFormat} {text : List Char} {value : Float}
    {position : Nat} (h : format.munch 0 text = some [⟨.number value, position⟩]) :
    IsLiteral value := by
  have htokens := (tokenize_ofList_eq_ok_iff format text _).2 h
  exact ⟨format, String.ofList text, _, position, htokens, List.mem_singleton.2 rfl⟩

/-- The numeral of 10 ^ 309. -/
def overlong : Numeral := ⟨'1' :: List.replicate 309 '0', []⟩

theorem code_overlong : overlong.code = Binary64.infinity := by
  decide +kernel

theorem wellFormed_overlong : overlong.WellFormed := by
  refine ⟨List.cons_ne_nil _ _, fun c hc => ?_, nofun⟩
  rcases List.mem_cons.1 hc with rfl | hc
  · rfl
  · rw [List.eq_of_mem_replicate hc]
    rfl

/-- Literals are the magnitudes up to infinity, which stands for those that overflow. -/
theorem isLiteral_iff {value : Float} :
    IsLiteral value ↔ ∃ code ≤ Binary64.infinity, value = Binary64.ofCode false code := by
  constructor
  · rintro ⟨format, source, tokens, position, htokens, hmem⟩
    have hscanned := NumberFormat.scanned_of_mem_munch (munch_of_tokenize htokens) _ hmem
    obtain ⟨code, hle, hvalue, _⟩ := hscanned
    exact ⟨code, hle, hvalue⟩
  · rintro ⟨code, hle, rfl⟩
    obtain ⟨numeral, hwell, rfl⟩ : ∃ numeral : Numeral, numeral.WellFormed ∧
        numeral.code = code := by
      rcases Nat.lt_or_eq_of_le hle with hfinite | rfl
      · exact ⟨_, Numeral.wellFormed_shortest code, Numeral.code_shortest hfinite⟩
      · exact ⟨_, wellFormed_overlong, code_overlong⟩
    have hreads : NumberFormat.reads ⟨'.'⟩ = true := rfl
    exact isLiteral_of_munch (NumberFormat.munch_numeral_alone hwell (.inr hreads) 0)

/-- A literal is read from what is written of it exactly if it has not overflowed, and is whole
or has a separator that is read as one. -/
theorem tokenize_write_iff (format : NumberFormat) {value : Float} (h : IsLiteral value) :
    tokenize format (String.ofList (format.write value)) = .ok [⟨.number value, 0⟩] ↔
      Binary64.isFinite value = true ∧ (Binary64.IsWhole value ∨ format.reads = true) := by
  obtain ⟨code, hle, rfl⟩ := isLiteral_iff.1 h
  rw [tokenize_ofList_eq_ok_iff, Binary64.IsWhole, Binary64.isFinite, Binary64.code_ofCode hle,
    decide_eq_true_iff]
  rcases Nat.lt_or_eq_of_le hle with hfinite | rfl
  · have hwell := Numeral.wellFormed_shortest code
    rw [NumberFormat.write_finite hfinite, ← Numeral.fraction_shortest_eq_nil_iff hfinite]
    constructor
    · intro hmunch
      exact ⟨hfinite, or_iff_not_imp_left.2 fun hfraction =>
        NumberFormat.reads_of_munch_shortest hfinite hfraction hmunch⟩
    · rintro ⟨_, hseparator⟩
      have hmunch := NumberFormat.munch_numeral_alone hwell hseparator 0
      rwa [Numeral.code_shortest hfinite] at hmunch
  · constructor
    · exact fun hmunch => absurd hmunch (NumberFormat.munch_write_infinity 0 _)
    · exact fun hboth => absurd hboth.1 (Nat.lt_irrefl _)

/-- The code of one half. -/
def halfCode : Nat := 1022 * 2 ^ 52

def half : Float := Binary64.ofCode false halfCode

theorem halfCode_lt : halfCode < Binary64.infinity := by decide

theorem fraction_half : (Numeral.shortest halfCode).fraction ≠ [] := by
  rw [ne_eq, Numeral.fraction_shortest_eq_nil_iff halfCode_lt]
  decide +kernel

theorem isLiteral_half : IsLiteral half :=
  isLiteral_iff.2 ⟨halfCode, Nat.le_of_lt halfCode_lt, rfl⟩

theorem isFinite_half : Binary64.isFinite half = true := by
  rw [Binary64.isFinite, half, Binary64.code_ofCode (Nat.le_of_lt halfCode_lt)]
  exact decide_eq_true halfCode_lt

/-- With a comma between decimals, one half is read back. -/
theorem tokenize_write_half : IsLiteral half ∧
    tokenize ⟨','⟩ (String.ofList (NumberFormat.write ⟨','⟩ half)) = .ok [⟨.number half, 0⟩] :=
  ⟨isLiteral_half, (tokenize_write_iff ⟨','⟩ isLiteral_half).2 ⟨isFinite_half, .inr rfl⟩⟩

/-- An overflowed number is lost in the usual format, and one half with a plus for a separator. -/
theorem literals_lost :
    (IsLiteral (Binary64.ofCode false Binary64.infinity) ∧
      tokenize ⟨'.'⟩ (String.ofList
          (NumberFormat.write ⟨'.'⟩ (Binary64.ofCode false Binary64.infinity))) ≠
        .ok [⟨.number (Binary64.ofCode false Binary64.infinity), 0⟩]) ∧
    (IsLiteral half ∧ Binary64.isFinite half = true ∧
      tokenize ⟨'+'⟩ (String.ofList (NumberFormat.write ⟨'+'⟩ half)) ≠
        .ok [⟨.number half, 0⟩]) := by
  refine ⟨⟨isLiteral_iff.2 ⟨_, Nat.le_refl _, rfl⟩, ?_⟩, isLiteral_half, isFinite_half, ?_⟩
  · rw [ne_eq, tokenize_ofList_eq_ok_iff]
    exact NumberFormat.munch_write_infinity 0 _
  · rw [ne_eq, tokenize_ofList_eq_ok_iff, half, NumberFormat.write_finite halfCode_lt]
    intro hmunch
    have hreads := NumberFormat.reads_of_munch_shortest halfCode_lt fraction_half hmunch
    revert hreads
    decide

end Formula
