/-
Numerals are read from their text.  A numeral that is read one character after the
other denotes the number that its whole run is read as, and that is the double nearest to
the decimal of the run.
-/
import Formula.Proofs.Number.Decimal
import Formula.Proofs.Scanning.Munching

namespace Formula

theorem digits_or_other (text : List Char) :
    (∀ c ∈ text, c.isDigit = true) ∨ ∃ digits other rest, text = digits ++ other :: rest ∧
      (∀ c ∈ digits, c.isDigit = true) ∧ other.isDigit = false := by
  induction text with
  | nil => exact .inl fun c hc => by cases hc
  | cons first text ih =>
      by_cases hfirst : first.isDigit = true
      · rcases ih with hdigits | ⟨digits, other, rest, rfl, hdigits, hother⟩
        · exact .inl (List.forall_mem_cons.2 ⟨hfirst, hdigits⟩)
        · exact .inr ⟨first :: digits, other, rest, rfl, List.forall_mem_cons.2 ⟨hfirst, hdigits⟩,
            hother⟩
      · exact .inr ⟨[], first, text, rfl, by simp, by simpa using hfirst⟩

namespace OpenNumeral

/-- The numeral with one more character.  Whatever is no digit separates. -/
def take? (number : OpenNumeral) (c : Char) : Option OpenNumeral :=
  if c.isDigit then some (number.digit c) else (number.separator 0).toOption

/-- The numeral with a run of characters, read one after the other. -/
def extend (number : OpenNumeral) : List Char → Option OpenNumeral
  | [] => some number
  | c :: rest => (number.take? c).bind (·.extend rest)

theorem take?_digit {c : Char} (h : c.isDigit = true) (number : OpenNumeral) :
    number.take? c = some (number.digit c) := if_pos h

theorem take?_separator {c : Char} (h : c.isDigit = false) (number : OpenNumeral)
    (position : Nat) : number.take? c = (number.separator position).toOption := by
  rw [take?, if_neg (by simp [h])]
  cases hfraction : number.fraction with
  | none => simp [separator, hfraction, pure, Except.pure, Except.toOption]
  | some digits =>
      simp [separator, hfraction, throw, throwThe, MonadExceptOf.throw, Except.toOption]

theorem extend_digits {digits : List Char} (hdigits : ∀ c ∈ digits, c.isDigit = true)
    (number : OpenNumeral) (rest : List Char) :
    number.extend (digits ++ rest) = (digits.foldl digit number).extend rest := by
  induction digits generalizing number with
  | nil => rfl
  | cons c digits ih =>
      have hrest := fun d hd => hdigits d (List.mem_cons_of_mem c hd)
      rw [List.cons_append, extend, take?_digit (hdigits c List.mem_cons_self), Option.bind_some,
        ih hrest]
      rfl

theorem foldl_digit_whole (start : Nat) (whole digits : List Char) :
    digits.foldl digit ⟨start, whole, none⟩ = ⟨start, digits.reverse ++ whole, none⟩ := by
  induction digits generalizing whole with
  | nil => rfl
  | cons c digits ih =>
      rw [List.foldl_cons, digit, ih]
      simp

theorem foldl_digit_fraction (start : Nat) (whole fraction digits : List Char) :
    digits.foldl digit ⟨start, whole, some fraction⟩ =
      ⟨start, whole, some (digits.reverse ++ fraction)⟩ := by
  induction digits generalizing fraction with
  | nil => rfl
  | cons c digits ih =>
      rw [List.foldl_cons, digit, ih]
      simp

/-- A run without a separator. -/
theorem extend_whole {digits : List Char} (hdigits : ∀ c ∈ digits, c.isDigit = true)
    (start : Nat) :
    extend { start := start } digits = some ⟨start, digits.reverse, none⟩ := by
  have h := extend_digits hdigits { start := start } []
  rw [List.append_nil, foldl_digit_whole, List.append_nil] at h
  exact h

/-- A run with a separator takes digits only behind it. -/
theorem extend_fraction {whole : List Char} (hwhole : ∀ c ∈ whole, c.isDigit = true)
    {separator : Char} (hseparator : separator.isDigit = false) (start : Nat) (rest : List Char) :
    extend { start := start } (whole ++ separator :: rest) =
      if rest.all Char.isDigit then some ⟨start, whole.reverse, some rest.reverse⟩ else none := by
  rw [extend_digits hwhole, foldl_digit_whole, List.append_nil, extend,
    take?_separator hseparator _ 0]
  change extend ⟨start, whole.reverse, some []⟩ rest = _
  rcases digits_or_other rest with hdigits | ⟨digits, other, tail, rfl, hdigits, hother⟩
  · have h := extend_digits hdigits ⟨start, whole.reverse, some []⟩ []
    rw [List.append_nil, foldl_digit_fraction, List.append_nil] at h
    rw [if_pos (List.all_eq_true.2 hdigits)]
    exact h
  · rw [extend_digits hdigits, foldl_digit_fraction, extend, take?_separator hother _ 0,
      if_neg (by simp [hother])]
    rfl

end OpenNumeral

namespace Binary64

theorem readSign_of_head {c : Char} (hminus : c ≠ '-') (hplus : c ≠ '+') (rest : List Char) :
    readSign (c :: rest) = (false, c :: rest) := by
  unfold readSign
  split
  · rename_i heq
    exact absurd (List.cons.inj heq).1 hminus
  · rename_i heq
    exact absurd (List.cons.inj heq).1 hplus
  · rfl

/-- Words begin with a letter. -/
theorem readMagnitude?_of_head {c : Char} (hlower : c.toLower ≠ 'n' ∧ c.toLower ≠ 'i')
    (rest : List Char) : readMagnitude? (c :: rest) = readDecimal? (c :: rest) := by
  have hword : ∀ letter letters, c.toLower ≠ letter →
      String.ofList ((c :: rest).map Char.toLower) ≠ String.ofList (letter :: letters) := by
    intro letter letters hne heq
    exact hne (List.cons.inj (String.ofList_injective heq)).1
  have hnan : String.ofList ((c :: rest).map Char.toLower) ≠ "nan" := hword 'n' ['a', 'n'] hlower.1
  have hinf : String.ofList ((c :: rest).map Char.toLower) ≠ "inf" := hword 'i' ['n', 'f'] hlower.2
  have hinfinity : String.ofList ((c :: rest).map Char.toLower) ≠ "infinity" :=
    hword 'i' ['n', 'f', 'i', 'n', 'i', 't', 'y'] hlower.2
  simp only [readMagnitude?, hnan, hinf, hinfinity, if_false, or_self]

/-- Characters that a literal begins with. -/
def startsLiteral (c : Char) : Prop := c.isDigit = true ∨ c = '.'

theorem read_of_startsLiteral {c : Char} (h : startsLiteral c) (rest : List Char) :
    read (c :: rest) =
      match readDecimal? (c :: rest) with
      | some magnitude => .ok (ofCode false magnitude)
      | none => .error .malformed := by
  have hlower : c.toLower ≠ 'n' ∧ c.toLower ≠ 'i' := by
    rcases h with hdigit | rfl
    · have hlow : c.toLower = c := by
        obtain ⟨_, hhigh⟩ := Text.isDigit_iff.1 hdigit
        have hnot : ¬ ('A'.val ≤ c.val ∧ c.val ≤ 'Z'.val) := by
          intro hupper
          have hbound : 65 ≤ c.toNat := hupper.1
          omega
        exact dif_neg hnot
      rw [hlow]
      constructor <;> rintro rfl <;> cases hdigit
    · decide
  have hsign : c ≠ '-' ∧ c ≠ '+' := by
    rcases h with hdigit | rfl
    · constructor <;> rintro rfl <;> cases hdigit
    · decide
  rw [read, if_neg (List.cons_ne_nil _ _), readSign_of_head hsign.1 hsign.2]
  simp only [readMagnitude?_of_head hlower]
  rfl

theorem span_digits {digits rest : List Char} (hdigits : ∀ c ∈ digits, c.isDigit = true)
    (hrest : ∀ c ∈ rest.head?, c.isDigit = false) :
    (digits ++ rest).span Char.isDigit = (digits, rest) := by
  rw [List.span_eq_takeWhile_dropWhile, takeWhile_run hdigits hrest, dropWhile_run hdigits hrest]

theorem readDecimal?_whole {digits : List Char} (hdigits : ∀ c ∈ digits, c.isDigit = true)
    (hne : digits ≠ []) : readDecimal? digits = some (Numeral.code ⟨digits, []⟩) := by
  have hspan : (digits ++ []).span Char.isDigit = (digits, []) := span_digits hdigits (by simp)
  rw [List.append_nil] at hspan
  rw [readDecimal?, hspan]
  simp [hne, readExponent?, Numeral.code, Numeral.coefficient]

theorem readDecimal?_fraction {whole fraction : List Char} (hwhole : ∀ c ∈ whole, c.isDigit = true)
    (hfraction : ∀ c ∈ fraction, c.isDigit = true) (hne : ¬ (whole = [] ∧ fraction = [])) :
    readDecimal? (whole ++ '.' :: fraction) = some (Numeral.code ⟨whole, fraction⟩) := by
  have hspan : (whole ++ '.' :: fraction).span Char.isDigit = (whole, '.' :: fraction) :=
    span_digits hwhole (by simp)
  have hspanFraction : (fraction ++ []).span Char.isDigit = (fraction, []) :=
    span_digits hfraction (by simp)
  rw [List.append_nil] at hspanFraction
  rw [readDecimal?, hspan]
  simp only []
  rw [hspanFraction]
  simp [hne, readExponent?, Numeral.code, Numeral.coefficient]

end Binary64

/-- Separators are read as points. -/
def pointed (run : List Char) : List Char := run.map fun c => if c.isDigit then c else '.'

theorem pointed_digits {digits : List Char} (hdigits : ∀ c ∈ digits, c.isDigit = true) :
    pointed digits = digits := by
  unfold pointed
  exact (List.map_congr_left fun c hc => if_pos (hdigits c hc)).trans (List.map_id' digits)

theorem read_pointed {run : List Char} (hne : run ≠ []) :
    (Binary64.read (pointed run)).toOption =
      (Binary64.readDecimal? (pointed run)).map (Binary64.ofCode false) := by
  obtain ⟨first, rest, rfl⟩ := List.exists_cons_of_ne_nil hne
  have hstarts : Binary64.startsLiteral (if first.isDigit then first else '.') := by
    by_cases hfirst : first.isDigit = true
    · rw [if_pos hfirst]
      exact .inl hfirst
    · rw [if_neg hfirst]
      exact .inr rfl
  rw [pointed, List.map_cons, Binary64.read_of_startsLiteral hstarts]
  cases Binary64.readDecimal? _ <;> rfl

theorem literal?_whole {digits : List Char} (hdigits : ∀ c ∈ digits, c.isDigit = true)
    (hne : digits ≠ []) :
    literal? digits = some (Binary64.ofCode false (Numeral.code ⟨digits, []⟩)) := by
  have hcount : digits.countP (fun c => !c.isDigit) = 0 := by
    simpa [List.countP_eq_zero] using hdigits
  have hany : ¬ digits.all (fun c => !c.isDigit) = true := by
    obtain ⟨first, rest, rfl⟩ := List.exists_cons_of_ne_nil hne
    simp [hdigits first List.mem_cons_self]
  have hread := read_pointed hne
  rw [pointed_digits hdigits, Binary64.readDecimal?_whole hdigits hne] at hread
  rw [literal?, if_neg (by simp [hcount, hany])]
  change (Binary64.read (pointed digits)).toOption = _
  rw [pointed_digits hdigits, hread]
  rfl

theorem literal?_fraction {whole : List Char} (hwhole : ∀ c ∈ whole, c.isDigit = true)
    {separator : Char} (hseparator : separator.isDigit = false) (rest : List Char) :
    literal? (whole ++ separator :: rest) =
      if rest.all Char.isDigit ∧ ¬ (whole = [] ∧ rest = []) then
        some (Binary64.ofCode false (Numeral.code ⟨whole, rest⟩))
      else none := by
  have hcountWhole : whole.countP (fun c => !c.isDigit) = 0 := by
    simpa [List.countP_eq_zero] using hwhole
  rcases digits_or_other rest with hdigits | ⟨digits, other, tail, rfl, hdigits, hother⟩
  · have hcountRest : rest.countP (fun c => !c.isDigit) = 0 := by
      simpa [List.countP_eq_zero] using hdigits
    have hcount : (whole ++ separator :: rest).countP (fun c => !c.isDigit) = 1 := by
      simp [List.countP_append, hcountWhole, hcountRest, hseparator]
    by_cases hempty : whole = [] ∧ rest = []
    · obtain ⟨rfl, rfl⟩ := hempty
      simp [literal?, hseparator]
    · have hany : ¬ (whole ++ separator :: rest).all (fun c => !c.isDigit) = true := by
        intro hall
        refine hempty ⟨List.eq_nil_iff_forall_not_mem.2 fun c hc => ?_,
          List.eq_nil_iff_forall_not_mem.2 fun c hc => ?_⟩
        · have hnot := List.all_eq_true.1 hall c (List.mem_append_left _ hc)
          simp [hwhole c hc] at hnot
        · have hmem := List.mem_append_right whole (List.mem_cons_of_mem separator hc)
          have hnot := List.all_eq_true.1 hall c hmem
          simp [hdigits c hc] at hnot
      have hpointed : pointed (whole ++ separator :: rest) = whole ++ '.' :: rest := by
        rw [pointed, List.map_append, List.map_cons, if_neg (by simp [hseparator])]
        change pointed whole ++ '.' :: pointed rest = _
        rw [pointed_digits hwhole, pointed_digits hdigits]
      have hread :=
        read_pointed (List.append_ne_nil_of_right_ne_nil whole (List.cons_ne_nil separator rest))
      rw [hpointed, Binary64.readDecimal?_fraction hwhole hdigits hempty] at hread
      rw [literal?, if_neg (by simp [hcount, hany]), if_pos ⟨List.all_eq_true.2 hdigits, hempty⟩]
      change (Binary64.read (pointed _)).toOption = _
      rw [hpointed, hread]
      rfl
  · have hcount : 1 < (whole ++ separator :: (digits ++ other :: tail)).countP
        (fun c => !c.isDigit) := by
      simp [List.countP_append, hseparator, hother]
      omega
    rw [literal?, if_pos (.inl hcount), if_neg (by simp [hother])]

/-- The number of a run is the double nearest to its decimal. -/
theorem literal?_eq_some_iff {run : List Char} {value : Float} :
    literal? run = some value ↔ HasValue run value := by
  constructor
  · intro h
    rcases digits_or_other run with hdigits | ⟨whole, separator, rest, rfl, hwhole, hseparator⟩
    · have hne : run ≠ [] := by
        rintro rfl
        cases h
      rw [literal?_whole hdigits hne] at h
      obtain rfl := Option.some.inj h
      exact .of_digits hdigits hne
    · rw [literal?_fraction hwhole hseparator, Option.ite_none_right_eq_some] at h
      obtain ⟨⟨hall, hne⟩, hvalue⟩ := h
      obtain rfl := Option.some.inj hvalue
      exact .of_separated hwhole hseparator (List.all_eq_true.1 hall) hne
  · intro h
    cases h with
    | whole hdigits hne hnearest =>
        rw [literal?_whole hdigits hne, hnearest.unique (Numeral.isNearest_code_whole _),
          Binary64.ofCode_false]
    | separated hwhole hseparator hfraction hne hnearest =>
        rw [literal?_fraction hwhole hseparator, if_pos ⟨List.all_eq_true.2 hfraction, hne⟩,
          hnearest.unique (Numeral.isNearest_code _ _), Binary64.ofCode_false]

/-- Reading a run character by character yields the number of its text. -/
theorem OpenNumeral.extend_close (start : Nat) {run : List Char} (hne : run ≠ []) :
    (extend { start := start } run).bind (fun number => number.close.toOption) =
      (literal? run).map fun value => ⟨.number value, start⟩ := by
  rcases digits_or_other run with hdigits | ⟨whole, separator, rest, rfl, hwhole, hseparator⟩
  · rw [extend_whole hdigits, literal?_whole hdigits hne]
    simp [close, numeral, hne, pure, Except.pure, Except.toOption]
  · rw [extend_fraction hwhole hseparator, literal?_fraction hwhole hseparator]
    by_cases hall : rest.all Char.isDigit = true
    · by_cases hempty : whole = [] ∧ rest = []
      · obtain ⟨rfl, rfl⟩ := hempty
        rfl
      · rw [if_pos hall, if_pos ⟨hall, hempty⟩]
        simp [close, numeral, hempty, pure, Except.pure, Except.toOption]
    · rw [if_neg hall, if_neg fun h => hall h.1]
      rfl

end Formula
