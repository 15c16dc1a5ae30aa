/-
The scanner against maximal munch.  At every character the tokens that are still
expected are known from the token that is being read; a step keeps them, so at the
end the scanner has them.
-/
import Formula.Proofs.Outcome
import Formula.Proofs.Scanning.Munches

namespace Formula

variable {format : NumberFormat}

namespace Scan

/-- The tokens to come behind the characters that have been read: the one that is
being read goes on as far as it can. -/
def upcoming (format : NumberFormat) (position : Nat) (text : List Char) :
    OpenToken → Option (List Placed)
  | .nothing => format.munch position text
  | .identifier start letters =>
      let run := text.takeWhile Text.isWord
      (format.munch (position + run.length) (text.dropWhile Text.isWord)).map
        (⟨.identifier (String.ofList (letters.reverse ++ run)), start⟩ :: ·)
  | .numeral number true =>
      let run := text.takeWhile format.continues
      ((number.extend run).bind (·.close.toOption)).bind fun token =>
        (format.munch (position + run.length) (text.dropWhile format.continues)).map (token :: ·)
  | .numeral number false =>
      number.close.toOption.bind fun token => (format.munch position text).map (token :: ·)

/-- All tokens, if the text goes on like this. -/
def expected (format : NumberFormat) (scan : Scan) (text : List Char) : Option (List Placed) :=
  (upcoming format scan.position text scan.current).map (scan.tokens.reverse ++ ·)

theorem separator_touched (position : Nat) (tokens : List Placed) (number : OpenNumeral) :
    separator ⟨position, tokens, .numeral number true⟩ =
      (number.separator position).map fun number =>
        ⟨position, tokens, .numeral number true⟩ := rfl

/-- A digit or separator goes to the numeral that it touches. -/
theorem step_continues {c : Char} (h : format.continues c = true) (position : Nat)
    (tokens : List Placed) (number : OpenNumeral) :
    (step format ⟨position, tokens, .numeral number true⟩ c).toOption =
      (number.take? c).map fun number => ⟨position + 1, tokens, .numeral number true⟩ := by
  simp only [NumberFormat.continues, Bool.or_eq_true, Bool.and_eq_true, decide_eq_true_eq] at h
  rcases h with (hdigit | hseparates) | ⟨hcomma, hformat⟩
  · simp only [step, start, NumberFormat.classify_of_isDigit hdigit]
    rw [OpenNumeral.take?_digit hdigit]
    rfl
  · have hdigit := (NumberFormat.eq_of_separates hseparates).2.2.1
    simp only [step, start, NumberFormat.classify_of_separates hseparates]
    rw [separator_touched, OpenNumeral.take?_separator hdigit number position]
    cases number.separator position <;> rfl
  · have hmark : Token.mark? c = some .comma := by rw [hcomma]; rfl
    have hdigit := (Token.eq_of_mark? hmark).2.2.2.1
    simp only [step, start, NumberFormat.classify_of_mark? hmark]
    rw [if_pos ⟨hcomma, hformat, rfl⟩, separator_touched,
      OpenNumeral.take?_separator hdigit number position]
    cases number.separator position <;> rfl

/-- A digit or separator that touches no numeral begins one. -/
theorem step_startsNumber {c : Char} (h : format.startsNumber c = true) (position : Nat)
    (tokens : List Placed) :
    (step format ⟨position, tokens, .nothing⟩ c).toOption =
      (OpenNumeral.take? { start := position } c).map fun number =>
        ⟨position + 1, tokens, .numeral number true⟩ := by
  rcases Bool.or_eq_true_iff.1 h with hdigit | hseparates
  · simp only [step, start, NumberFormat.classify_of_isDigit hdigit]
    rw [OpenNumeral.take?_digit hdigit]
    rfl
  · have hdigit := (NumberFormat.eq_of_separates hseparates).2.2.1
    simp only [step, start, NumberFormat.classify_of_separates hseparates]
    rw [OpenNumeral.take?_separator hdigit _ position]
    rfl

/-- Whether a character ends the token that is being read. -/
def Ends (format : NumberFormat) (c : Char) : OpenToken → Prop
  | .nothing => True
  | .identifier _ _ => Text.isWord c = false
  | .numeral _ touched => Text.isBlank c = false ∧ (touched = true → format.continues c = false)

theorem touched?_of_ends {scan : Scan} {c : Char} (h : Ends format c scan.current)
    (hcontinues : format.continues c = true) : scan.touched? = none := by
  obtain ⟨position, tokens, current⟩ := scan
  cases current with
  | nothing | identifier _ _ => rfl
  | numeral number touched =>
      cases touched with
      | false => rfl
      | true =>
          rw [h.2 rfl] at hcontinues
          cases hcontinues

/-- Nothing is being read once the scan is closed. -/
theorem of_close {scan closed : Scan} (h : scan.close = .ok closed) :
    closed.current = .nothing ∧ closed.position = scan.position := by
  obtain ⟨position, tokens, current⟩ := scan
  cases current with
  | nothing | identifier _ _ =>
      cases h
      exact ⟨rfl, rfl⟩
  | numeral number touched =>
      simp only [close] at h
      obtain ⟨token, -, hclosed⟩ := bind_eq_ok_iff.1 h
      cases hclosed
      exact ⟨rfl, rfl⟩

theorem close_of_nothing {scan : Scan} (h : scan.current = .nothing) : scan.close = .ok scan := by
  rw [close, h]
  rfl

theorem touched?_of_nothing {scan : Scan} (h : scan.current = .nothing) : scan.touched? = none := by
  rw [touched?, h]

/-- Closing twice is closing once. -/
theorem close_bind {next closedNext : Scan → Except ParseError Scan}
    (h : ∀ closed : Scan, closed.current = .nothing → closedNext closed = closed.close >>= next)
    (scan : Scan) : scan.close >>= next = scan.close >>= closedNext := by
  cases hclose : scan.close with
  | error fault => rfl
  | ok closed =>
      have hnothing := (of_close hclose).1
      change next closed = closedNext closed
      rw [h closed hnothing, close_of_nothing hnothing]
      rfl

theorem mark_eq (scan : Scan) (token : Token) :
    scan.mark token = scan.close >>= fun closed => closed.mark token :=
  close_bind (fun _ _ => rfl) scan

theorem letter_eq (scan : Scan) (c : Char) :
    scan.letter c = scan.close >>= fun closed => closed.letter c :=
  close_bind (fun _ _ => rfl) scan

theorem numeral_eq {scan : Scan} (h : scan.touched? = none) :
    scan.numeral = scan.close >>= fun closed => closed.numeral := by
  rw [numeral, h]
  cases hclose : scan.close with
  | error fault => rfl
  | ok closed =>
      obtain ⟨hnothing, hposition⟩ := of_close hclose
      change _ = closed.numeral
      rw [numeral, touched?_of_nothing hnothing, close_of_nothing hnothing, ← hposition]

theorem digit_eq {scan : Scan} (h : scan.touched? = none) (c : Char) :
    scan.digit c = scan.close >>= fun closed => closed.digit c := by
  simp only [digit, numeral_eq h]
  cases scan.close <;> rfl

theorem separator_eq {scan : Scan} (h : scan.touched? = none) :
    scan.separator = scan.close >>= fun closed => closed.separator := by
  simp only [separator, numeral_eq h]
  cases scan.close <;> rfl

/-- A mark that cannot continue a numeral is a token. -/
theorem start_mark {scan : Scan} {c : Char} {token : Token} (hmark : Token.mark? c = some token)
    (h : Ends format c scan.current) : start format scan c = scan.mark token := by
  simp only [start, NumberFormat.classify_of_mark? hmark]
  apply if_neg
  rintro ⟨hcomma, hformat, htouched⟩
  have hcontinues : format.continues c = true := by
    simp [NumberFormat.continues, hcomma, hformat]
  rw [touched?_of_ends h hcontinues] at htouched
  cases htouched

theorem blank_eq {scan : Scan} {c : Char} (hblank : Text.isBlank c = true)
    (h : Ends format c scan.current) : scan.blank = scan.close := by
  obtain ⟨position, tokens, current⟩ := scan
  cases current with
  | nothing | identifier _ _ => rfl
  | numeral number touched =>
      rw [h.1] at hblank
      cases hblank

/-- The character is read as if the token in front of it had been complete before. -/
theorem start_of_ends {scan : Scan} {c : Char} (h : Ends format c scan.current) :
    (start format scan c).toOption =
      scan.close.toOption.bind fun closed => (start format closed c).toOption := by
  have hdone : ∀ {closed : Scan}, scan.close = .ok closed → Ends format c closed.current := by
    intro closed hclose
    rw [(of_close hclose).1]
    trivial
  rcases format.classes c with hblank | ⟨token, hmark⟩ | hletter | hdigit | hseparates |
    ⟨hblank, hmark, hletter, hdigit, hseparates⟩
  · simp only [start, NumberFormat.classify_of_isBlank hblank]
    rw [blank_eq hblank h]
    cases hclose : scan.close with
    | error fault => rfl
    | ok closed =>
        change _ = closed.blank.toOption
        rw [blank_eq hblank (hdone hclose), close_of_nothing (of_close hclose).1]
  · rw [start_mark hmark h, mark_eq]
    cases hclose : scan.close with
    | error fault => rfl
    | ok closed => exact congrArg Except.toOption (start_mark hmark (hdone hclose)).symm
  · simp only [start, NumberFormat.classify_of_isLetter hletter]
    rw [letter_eq]
    cases scan.close <;> rfl
  · have hcontinues : format.continues c = true := by simp [NumberFormat.continues, hdigit]
    simp only [start, NumberFormat.classify_of_isDigit hdigit]
    rw [digit_eq (touched?_of_ends h hcontinues)]
    cases scan.close <;> rfl
  · have hcontinues : format.continues c = true := by simp [NumberFormat.continues, hseparates]
    simp only [start, NumberFormat.classify_of_separates hseparates]
    rw [separator_eq (touched?_of_ends h hcontinues)]
    cases scan.close <;> rfl
  · simp only [start, NumberFormat.classify_other hblank hmark hletter hdigit hseparates]
    cases scan.close <;> rfl

theorem step_eq_start {scan : Scan} {c : Char} (h : Ends format c scan.current) :
    step format scan c =
      (start format scan c).map fun next => { next with position := scan.position + 1 } := by
  obtain ⟨position, tokens, current⟩ := scan
  cases current with
  | nothing | numeral _ _ => rfl
  | identifier first letters =>
      have hword : ¬ (Text.isLetter c = true ∨ Text.isDecimalDigit c = true) := by
        rw [← Bool.or_eq_true]
        exact Bool.eq_false_iff.1 h
      simp only [step, if_neg hword]
      rfl

theorem step_of_ends {scan : Scan} {c : Char} (h : Ends format c scan.current) :
    (step format scan c).toOption =
      scan.close.toOption.bind fun closed => (step format closed c).toOption := by
  rw [step_eq_start h, toOption_map, start_of_ends h]
  cases hclose : scan.close with
  | error fault => rfl
  | ok closed =>
      obtain ⟨hnothing, hposition⟩ := of_close hclose
      have hdone : Ends format c closed.current := by
        rw [hnothing]
        trivial
      change _ = (step format closed c).toOption
      rw [step_eq_start hdone, toOption_map, hposition]
      rfl

/-- A complete token stands in front of the tokens to come. -/
theorem map_complete (token : Placed) (tokens : List Placed) (more : Option (List Placed)) :
    (more.map (token :: ·)).map (tokens.reverse ++ ·) =
      more.map ((token :: tokens).reverse ++ ·) := by
  cases more with
  | none => rfl
  | some more => simp

/-- A numeral that the next character does not continue is complete. -/
theorem upcoming_numeral {touched : Bool} {c : Char}
    (h : touched = true → format.continues c = false) (position : Nat) (number : OpenNumeral)
    (rest : List Char) :
    upcoming format position (c :: rest) (.numeral number touched) =
      number.close.toOption.bind fun token =>
        (format.munch position (c :: rest)).map (token :: ·) := by
  cases touched with
  | false => rfl
  | true =>
      have hstops : ¬ format.continues c = true := Bool.eq_false_iff.1 (h rfl)
      simp only [upcoming, List.takeWhile_cons_of_neg hstops, List.dropWhile_cons_of_neg hstops]
      rfl

/-- Completing the token that is being read keeps the tokens that are expected. -/
theorem expected_of_ends {scan : Scan} {c : Char} (h : Ends format c scan.current)
    (rest : List Char) :
    expected format scan (c :: rest) =
      scan.close.toOption.bind fun closed => expected format closed (c :: rest) := by
  obtain ⟨position, tokens, current⟩ := scan
  cases current with
  | nothing => rfl
  | identifier first letters =>
      have hword : ¬ Text.isWord c = true := Bool.eq_false_iff.1 h
      simp only [expected, upcoming, List.takeWhile_cons_of_neg hword,
        List.dropWhile_cons_of_neg hword, List.append_nil]
      exact map_complete ⟨.identifier (String.ofList letters.reverse), first⟩ tokens _
  | numeral number touched =>
      simp only [expected, upcoming_numeral h.2, close]
      cases number.close with
      | error fault => rfl
      | ok token => exact map_complete token tokens _

theorem expected_step_of_nothing {scan : Scan} (h : scan.current = .nothing) (c : Char)
    (rest : List Char) :
    (step format scan c).toOption.bind (expected format · rest) =
      expected format scan (c :: rest) := by
  obtain ⟨position, tokens, current⟩ := scan
  obtain rfl : current = .nothing := h
  have hends : Ends format c (Scan.mk position tokens .nothing).current := trivial
  by_cases hnumber : format.startsNumber c = true
  · rw [step_startsNumber hnumber]
    have hliteral := OpenNumeral.extend_close position
      (List.cons_ne_nil c (rest.takeWhile format.continues))
    simp only [expected, upcoming, NumberFormat.munch_number hnumber]
    rw [OpenNumeral.extend] at hliteral
    cases htake : OpenNumeral.take? { start := position } c with
    | none =>
        rw [htake] at hliteral
        rw [Option.map_eq_none_iff.1 hliteral.symm]
        rfl
    | some number =>
        rw [htake] at hliteral
        change (number.extend _).bind _ = _ at hliteral
        simp only [Option.map_some, Option.bind_some]
        rw [hliteral]
        cases literal? _ <;> rfl
  rcases format.classes c with hblank | ⟨token, hmark⟩ | hletter | hdigit | hseparates |
    ⟨hblank, hmark, hletter, hdigit, hseparates⟩
  · simp only [step, start, NumberFormat.classify_of_isBlank hblank]
    change (upcoming format (position + 1) rest .nothing).map _ = _
    simp only [expected, upcoming, NumberFormat.munch_blank hblank]
  · rw [step_eq_start hends, start_mark hmark hends]
    simp only [expected, upcoming, NumberFormat.munch_mark hmark]
    rw [map_complete]
    rfl
  · simp only [step, start, NumberFormat.classify_of_isLetter hletter]
    simp only [expected, upcoming, NumberFormat.munch_letter hletter]
    rfl
  · exact absurd (by simp [NumberFormat.startsNumber, hdigit]) hnumber
  · exact absurd (by simp [NumberFormat.startsNumber, hseparates]) hnumber
  · simp only [step, start, NumberFormat.classify_other hblank hmark hletter hdigit hseparates]
    simp only [expected, upcoming, NumberFormat.munch_other hblank hmark hletter
      (Bool.eq_false_iff.2 hnumber)]
    rfl

/-- A step keeps the tokens that are expected. -/
theorem expected_step (scan : Scan) (c : Char) (rest : List Char) :
    (step format scan c).toOption.bind (expected format · rest) =
      expected format scan (c :: rest) := by
  by_cases h : Ends format c scan.current
  · rw [step_of_ends h, expected_of_ends h, Option.bind_assoc]
    cases hclose : scan.close with
    | error fault => rfl
    | ok closed => exact expected_step_of_nothing (of_close hclose).1 c rest
  · obtain ⟨position, tokens, current⟩ := scan
    cases current with
    | nothing => exact absurd trivial h
    | identifier first letters =>
        have hword : Text.isWord c = true := by simpa [Ends] using h
        have hstep : step format ⟨position, tokens, .identifier first letters⟩ c =
            .ok ⟨position + 1, tokens, .identifier first (c :: letters)⟩ := by
          simp only [step, if_pos (Bool.or_eq_true_iff.1 hword)]
          rfl
        rw [hstep]
        change expected format _ rest = _
        simp only [expected, upcoming, List.takeWhile_cons_of_pos hword,
          List.dropWhile_cons_of_pos hword]
        simp [Nat.add_assoc, Nat.add_comm 1]
    | numeral number touched =>
        by_cases hblank : Text.isBlank c = true
        · have hstops : touched = true → format.continues c = false :=
            fun _ => NumberFormat.continues_of_isBlank hblank
          simp only [expected, upcoming_numeral hstops, NumberFormat.munch_blank hblank]
          simp only [step, start, NumberFormat.classify_of_isBlank hblank]
          rfl
        · have hcontinues : touched = true ∧ format.continues c = true := by
            simpa [Ends, hblank] using h
          obtain ⟨rfl, hcontinues⟩ := hcontinues
          rw [step_continues hcontinues]
          simp only [expected, upcoming, List.takeWhile_cons_of_pos hcontinues,
            List.dropWhile_cons_of_pos hcontinues, OpenNumeral.extend, List.length_cons]
          rw [Nat.add_comm (rest.takeWhile format.continues).length 1, ← Nat.add_assoc]
          cases number.take? c <;> rfl

theorem expected_nil (scan : Scan) :
    expected format scan [] = scan.close.toOption.map (·.tokens.reverse) := by
  obtain ⟨position, tokens, current⟩ := scan
  cases current with
  | nothing =>
      simp only [expected, upcoming, NumberFormat.munch_nil, Option.map_some, List.append_nil]
      rfl
  | identifier first letters =>
      simp only [expected, upcoming, List.takeWhile_nil, List.dropWhile_nil,
        NumberFormat.munch_nil, List.append_nil]
      exact (map_complete _ tokens (some [])).trans (congrArg some (List.append_nil _))
  | numeral number touched =>
      have hupcoming : upcoming format position [] (.numeral number touched) =
          number.close.toOption.map fun token => [token] := by
        cases touched with
        | false =>
            simp only [upcoming, NumberFormat.munch_nil]
            cases number.close <;> rfl
        | true =>
            simp only [upcoming, List.takeWhile_nil, List.dropWhile_nil, NumberFormat.munch_nil]
            cases hclose : number.close <;> simp [OpenNumeral.extend, hclose, Except.toOption]
      simp only [expected, hupcoming, close]
      cases number.close with
      | error fault => rfl
      | ok token =>
          exact (map_complete token tokens (some [])).trans (congrArg some (List.append_nil _))

/-- Reading a text from any state yields the tokens that are expected there. -/
theorem foldlM_eq_expected (scan : Scan) (text : List Char) :
    (text.foldlM (step format) scan >>= close).toOption.map (·.tokens.reverse) =
      expected format scan text := by
  induction text generalizing scan with
  | nil => exact (expected_nil scan).symm
  | cons c rest ih =>
      rw [← expected_step, List.foldlM_cons]
      cases step format scan c with
      | error fault => rfl
      | ok next => exact ih next

end Scan

/-- The scanner yields the tokens that maximal munch yields, and fails where it fails. -/
theorem NumberFormat.toOption_scan (format : NumberFormat) (text : List Char) :
    (format.scan text).toOption = format.munch 0 text := by
  have hexpected : Scan.expected format {} text = format.munch 0 text :=
    Option.map_id'
  rw [← hexpected, ← Scan.foldlM_eq_expected, NumberFormat.scan]
  cases hfold : text.foldlM (Scan.step format) {} with
  | error fault => rfl
  | ok scan =>
      change (scan.close >>= fun closed => _).toOption = scan.close.toOption.map _
      cases scan.close <;> rfl

theorem munch_of_tokenize {source : String} {tokens : List Placed}
    (h : tokenize format source = .ok tokens) : format.munch 0 source.toList = some tokens := by
  rw [← format.toOption_scan, ← tokenize, h]
  rfl

/-- A text is scanned exactly if maximal munch comes to its end, and to the same tokens. -/
theorem tokenize_eq_ok_iff_munches (format : NumberFormat) (source : String)
    (tokens : List Placed) :
    tokenize format source = .ok tokens ↔ format.Munches 0 source.toList tokens := by
  rw [← NumberFormat.munch_eq_some_iff, tokenize, ← format.toOption_scan, toOption_eq_some_iff]

/-- The tokens of `12.5 +x1*(7-.5)/é٣^2.%y,` and, behind a tab, `0.1`. -/
def everyKind : List Placed :=
  [⟨.number 12.5, 0⟩, ⟨.plus, 5⟩, ⟨.identifier "x1", 6⟩, ⟨.star, 8⟩, ⟨.openParen, 9⟩,
    ⟨.number 7, 10⟩, ⟨.minus, 11⟩, ⟨.number 0.5, 12⟩, ⟨.closeParen, 14⟩, ⟨.slash, 15⟩,
    ⟨.identifier "é٣", 16⟩, ⟨.caret, 18⟩, ⟨.number 2, 19⟩, ⟨.percent, 21⟩, ⟨.identifier "y", 22⟩,
    ⟨.comma, 23⟩, ⟨.number 0.1, 25⟩]

theorem tokenize_everyKind :
    tokenize ⟨'.'⟩ "12.5 +x1*(7-.5)/é٣^2.%y,\t0.1" = .ok everyKind ∧
      tokenize ⟨','⟩ ",1,5" = .ok [⟨.comma, 0⟩, ⟨.number 1.5, 1⟩] ∧
      ∀ tokens, tokenize ⟨','⟩ "1,5,2" ≠ .ok tokens ∧ tokenize ⟨'.'⟩ "." ≠ .ok tokens ∧
        tokenize ⟨'.'⟩ "?" ≠ .ok tokens := by
  have hvalue : ∀ {whole fraction value separator},
      (whole.all Char.isDigit = true ∧ separator.isDigit = false ∧
          fraction.all Char.isDigit = true ∧ ¬ (whole = [] ∧ fraction = [])) →
        Binary64.ofCode false (Numeral.code ⟨whole, fraction⟩) = value →
          HasValue (whole ++ separator :: fraction) value := by
    rintro whole fraction value separator ⟨hwhole, hseparator, hfraction, hne⟩ rfl
    exact .of_separated (List.all_eq_true.1 hwhole) hseparator (List.all_eq_true.1 hfraction) hne
  have htwelve : HasValue (['1', '2'] ++ '.' :: ['5']) 12.5 :=
    hvalue (by decide) (by decide +kernel)
  have hseven : HasValue ['7'] 7 := by
    have hcode : Binary64.ofCode false (Numeral.code ⟨['7'], []⟩) = 7 := by decide +kernel
    exact hcode ▸ .of_digits (List.all_eq_true.1 (by decide)) (by decide)
  have hhalf : HasValue ([] ++ '.' :: ['5']) 0.5 := hvalue (by decide) (by decide +kernel)
  have htwo : HasValue (['2'] ++ '.' :: []) 2 := hvalue (by decide) (by decide +kernel)
  have htenth : HasValue (['0'] ++ '.' :: ['1']) 0.1 := hvalue (by decide) (by decide +kernel)
  have hcomma : HasValue (['1'] ++ ',' :: ['5']) 1.5 := hvalue (by decide) (by decide +kernel)
  have hall : ∀ {stays : Char → Bool} (run : List Char), run.all stays = true →
      ∀ d ∈ run, stays d = true := fun _ => List.all_eq_true.1
  have hends : ∀ {stays : Char → Bool} {c : Char} {rest : List Char}, stays c = false →
      ∀ d ∈ (c :: rest).head?, stays d = false := by
    intro stays c rest h d hd
    exact Option.some.inj hd ▸ h
  have hend : ∀ {stays : Char → Bool}, ∀ d ∈ ([] : List Char).head?, stays d = false := by
    intro stays d hd
    cases hd
  have hrejected : ∀ {format : NumberFormat} {source : String} {tokens : List Placed},
      format.munch 0 source.toList = none → tokenize format source ≠ .ok tokens := by
    intro format source tokens hnone htokens
    rw [tokenize_eq_ok_iff_munches, ← NumberFormat.munch_eq_some_iff, hnone] at htokens
    cases htokens
  refine ⟨(tokenize_eq_ok_iff_munches _ _ _).2 ?_, (tokenize_eq_ok_iff_munches _ _ _).2 ?_,
    fun tokens => ⟨hrejected ?_, hrejected ?_, hrejected ?_⟩⟩
  · rw [String.toList_ofList]
    refine .number rfl (hall ['2', '.', '5'] rfl) (hends rfl) htwelve ?_
    refine .blank rfl (.mark rfl ?_)
    refine .name rfl (hall ['1'] rfl) (hends rfl) ?_
    refine .mark rfl (.mark rfl ?_)
    refine .number rfl (hall [] rfl) (hends rfl) hseven ?_
    refine .mark rfl ?_
    refine .number rfl (hall ['5'] rfl) (hends rfl) hhalf ?_
    refine .mark rfl (.mark rfl ?_)
    refine .name (by decide +kernel) (hall ['٣'] (by decide +kernel)) (hends rfl) ?_
    refine .mark rfl ?_
    refine .number rfl (hall ['.'] rfl) (hends rfl) htwo ?_
    refine .mark rfl ?_
    refine .name rfl (hall [] rfl) (hends rfl) ?_
    refine .mark rfl (.blank rfl ?_)
    exact .number rfl (hall ['.', '1'] rfl) hend htenth .nil
  · rw [String.toList_ofList]
    refine .mark rfl ?_
    exact .number rfl (hall [',', '5'] rfl) hend hcomma .nil
  · rw [String.toList_ofList, NumberFormat.munch_number rfl]
    rfl
  · rw [String.toList_ofList, NumberFormat.munch_number rfl]
    rfl
  · rw [String.toList_ofList, NumberFormat.munch_other rfl rfl rfl rfl]

end Formula
