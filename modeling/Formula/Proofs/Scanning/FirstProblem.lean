/-
Which problem of a text is reported.  A numeral is known to lack a digit only when it is
complete, so a fault that is met before then overtakes it.  This happens behind a separator that
stands alone, and nowhere else: everything in front of any other fault is scanned.
-/
import Formula.Proofs.Scanning.Streaming

namespace Formula

variable {format : NumberFormat}

namespace NumberFormat

/-- A separator behind the text begins a numeral: it lacks a digit, and is read with one. -/
structure Dangles (format : NumberFormat) (before : List Char) : Prop where
  lacking : format.scan (before ++ [format.decimalSeparator]) =
    .error ⟨.invalidNumber, before.length⟩
  completed : ∃ tokens, format.scan (before ++ [format.decimalSeparator, '0']) = .ok tokens

/-- A position of a text at which a fault overtakes a numeral without a digit: a character that
is unknown, with blanks between them at most, or a second separator. -/
def OvertakenAt (format : NumberFormat) (text : List Char) (position : Nat) : Prop :=
  ∃ before blanks c rest, text = before ++ format.decimalSeparator :: (blanks ++ c :: rest) ∧
    position = before.length + 1 + blanks.length ∧ format.Dangles before ∧
    (∀ blank ∈ blanks, Text.isBlank blank = true) ∧
    (format.classify c = .other ∨ c = format.decimalSeparator ∧ blanks = [])

end NumberFormat

namespace OpenNumeral

/-- Neither in front of the separator nor behind it there is a digit. -/
def Digitless (number : OpenNumeral) : Prop :=
  number.numeral.whole = [] ∧ number.numeral.fraction = []

/-- A numeral is refused exactly if it has no digit, at its beginning. -/
theorem close_eq_error_iff {number : OpenNumeral} {error : ParseError} :
    number.close = .error error ↔
      number.Digitless ∧ error = ⟨.invalidNumber, number.start⟩ := by
  rw [close]
  split
  · rename_i hempty
    simp [Digitless, hempty, throw, throwThe, MonadExceptOf.throw, eq_comm]
  · rename_i hdigits
    simp [Digitless, hdigits, pure, Except.pure]

theorem error_of_separator {number : OpenNumeral} {position : Nat} {error : ParseError}
    (h : number.separator position = .error error) :
    number.fraction ≠ none ∧ error = ⟨.invalidNumber, position⟩ := by
  cases hfraction : number.fraction with
  | none => simp [separator, hfraction, pure, Except.pure] at h
  | some digits =>
      simp only [separator, hfraction] at h
      cases h
      exact ⟨Option.some_ne_none digits, rfl⟩

theorem not_digitless_digit (number : OpenNumeral) (c : Char) :
    ¬ (number.digit c).Digitless := by
  obtain ⟨start, whole, fraction⟩ := number
  cases fraction <;> simp [digit, numeral, Digitless]

end OpenNumeral

namespace Scan

theorem close_eq_error_iff {scan : Scan} {error : ParseError} :
    scan.close = .error error ↔
      ∃ number touched, scan.current = .numeral number touched ∧ number.Digitless ∧
        error = ⟨.invalidNumber, number.start⟩ := by
  obtain ⟨position, tokens, current⟩ := scan
  cases current with
  | nothing | identifier _ _ => simp [close, pure, Except.pure]
  | numeral number touched =>
      simp only [close, bind_eq_error_iff, OpenNumeral.close_eq_error_iff]
      simp [pure, Except.pure]

theorem touched?_eq_some_iff {scan : Scan} {number : OpenNumeral} :
    scan.touched? = some number ↔ scan.current = .numeral number true := by
  obtain ⟨position, tokens, current⟩ := scan
  cases current with
  | nothing | identifier _ _ => simp [touched?]
  | numeral other touched => cases touched <;> simp [touched?]

/-- The numeral that a digit or separator belongs to. -/
theorem of_numeral {scan found : Scan} {number : OpenNumeral}
    (h : scan.numeral = .ok (found, number)) :
    (scan.touched? = some number ∧ found = scan) ∨
      scan.touched? = none ∧ scan.close = .ok found ∧ number = { start := scan.position } := by
  rw [numeral] at h
  split at h
  · rename_i htouched
    cases h
    exact .inl ⟨htouched, rfl⟩
  · rename_i htouched
    obtain ⟨closed, hclose, hpure⟩ := bind_eq_ok_iff.1 h
    cases hpure
    exact .inr ⟨htouched, hclose, rfl⟩

theorem error_of_numeral {scan : Scan} {error : ParseError} (h : scan.numeral = .error error) :
    scan.close = .error error := by
  rw [numeral] at h
  split at h
  · cases h
  · rcases bind_eq_error_iff.1 h with hclose | ⟨closed, _, hpure⟩
    · exact hclose
    · cases hpure

/-- A separator is refused behind another one in the same numeral. -/
theorem error_of_separator {scan : Scan} {error : ParseError} (h : scan.separator = .error error) :
    scan.close = .error error ∨ error.position = scan.position ∧ scan.touched?.isSome = true := by
  rcases bind_eq_error_iff.1 h with hnumeral | ⟨⟨found, number⟩, hnumeral, hrest⟩
  · exact .inl (error_of_numeral hnumeral)
  rcases bind_eq_error_iff.1 hrest with hseparator | ⟨_, _, hpure⟩
  · obtain ⟨hfraction, rfl⟩ := OpenNumeral.error_of_separator hseparator
    rcases of_numeral hnumeral with ⟨htouched, rfl⟩ | ⟨_, _, rfl⟩
    · exact .inr ⟨rfl, by rw [htouched]; rfl⟩
    · exact absurd rfl hfraction
  · cases hpure

/-- What reading a character from the start comes to: the token that is being read is complete, a
blank leaves a numeral, a digit or a separator goes to one, or the character is unknown. -/
inductive Starts (format : NumberFormat) (scan : Scan) (c : Char)
    (outcome : Except ParseError Scan) : Prop
  | completes {next : Scan → Scan}
      (hnext : ∀ closed number touched, closed.current = .nothing →
        (next closed).current ≠ .numeral number touched)
      (h : outcome = scan.close >>= fun closed => pure (next closed))
  | leaves {number : OpenNumeral} {touched : Bool} (hblank : Text.isBlank c = true)
      (hcurrent : scan.current = .numeral number touched)
      (h : outcome = .ok { scan with current := .numeral number false })
  | digit (h : outcome = scan.digit c)
  | separator (hc : c = format.decimalSeparator)
      (hclass : format.classify c = .separator ∨ scan.touched?.isSome = true)
      (h : outcome = scan.separator)
  | unknown (hclass : format.classify c = .other)
      (h : outcome = .error ⟨.unknownCharacter c, scan.position⟩)

theorem starts_start (format : NumberFormat) (scan : Scan) (c : Char) :
    Starts format scan c (start format scan c) := by
  rw [start]
  split
  case h_1 =>
    refine .completes ?_ rfl
    intro closed number touched _ hcurrent
    cases hcurrent
  case h_2 hclass =>
    rw [blank]
    split
    · rename_i hcurrent
      exact .leaves (NumberFormat.isBlank_of_classify hclass) hcurrent rfl
    · refine .completes ?_ (bind_pure scan.close).symm
      intro closed number touched hnothing hcurrent
      rw [hnothing] at hcurrent
      cases hcurrent
  case h_3 => exact .digit rfl
  case h_4 token hclass =>
    split
    · rename_i hcomma
      exact .separator (hcomma.1.trans hcomma.2.1.symm) (.inr hcomma.2.2) rfl
    · refine .completes ?_ rfl
      intro closed number touched hnothing hcurrent
      rw [hnothing] at hcurrent
      cases hcurrent
  case h_5 hclass =>
    exact .separator (NumberFormat.eq_of_classify_separator hclass) (.inl hclass) rfl
  case h_6 hclass => exact .unknown hclass rfl

theorem error_of_start {scan : Scan} {c : Char} {error : ParseError}
    (h : start format scan c = .error error) :
    scan.close = .error error ∨ error.position = scan.position ∧
      (format.classify c = .other ∨ c = format.decimalSeparator ∧ scan.touched?.isSome = true) := by
  cases starts_start format scan c with
  | completes _ hstart =>
      rw [hstart] at h
      rcases bind_eq_error_iff.1 h with hclose | ⟨_, _, hpure⟩
      · exact .inl hclose
      · cases hpure
  | leaves _ _ hstart =>
      rw [hstart] at h
      cases h
  | digit hstart =>
      rw [hstart] at h
      rcases bind_eq_error_iff.1 h with hnumeral | ⟨_, _, hpure⟩
      · exact .inl (error_of_numeral hnumeral)
      · cases hpure
  | separator hc _ hstart =>
      rw [hstart] at h
      rcases error_of_separator h with hclose | ⟨hposition, htouched⟩
      · exact .inl hclose
      · exact .inr ⟨hposition, .inr ⟨hc, htouched⟩⟩
  | unknown hclass hstart =>
      rw [hstart] at h
      obtain rfl := Except.error.inj h
      exact .inr ⟨rfl, .inl hclass⟩

/-- A step continues an identifier, or reads the character from the start. -/
theorem step_cases (format : NumberFormat) (scan : Scan) (c : Char) :
    step format scan c = (start format scan c >>= fun next =>
        pure { next with position := scan.position + 1 }) ∨
      ∃ start letters, step format scan c =
        .ok { scan with position := scan.position + 1, current := .identifier start letters } := by
  rw [step]
  split
  · split
    · exact .inr ⟨_, _, rfl⟩
    · exact .inl rfl
  · exact .inl rfl

/-- A step fails on the token that is being read, or on the character: it is unknown, or the
second separator of a numeral. -/
theorem error_of_step {scan : Scan} {c : Char} {error : ParseError}
    (h : step format scan c = .error error) :
    scan.close = .error error ∨ error.position = scan.position ∧
      (format.classify c = .other ∨ c = format.decimalSeparator ∧ scan.touched?.isSome = true) := by
  rcases step_cases format scan c with hstart | ⟨start, letters, hword⟩
  · rw [hstart] at h
    rcases bind_eq_error_iff.1 h with hnext | ⟨_, _, hpure⟩
    · exact error_of_start hnext
    · cases hpure
  · rw [hword] at h
    cases h

/-- A numeral with one more digit or its separator.  A comma does not begin a numeral. -/
def Grows (format : NumberFormat) (scan : Scan) (number : OpenNumeral) (c : Char)
    (grown : OpenNumeral) : Prop :=
  grown = number.digit c ∨
    c = format.decimalSeparator ∧
      (format.classify c = .separator ∨ scan.touched?.isSome = true) ∧
      number.fraction = none ∧ grown = { number with fraction := some [] }

section Grows

variable {scan : Scan} {number grown : OpenNumeral} {c : Char}

theorem Grows.start (h : Grows format scan number c grown) : grown.start = number.start := by
  rcases h with rfl | ⟨_, _, _, rfl⟩
  · rw [OpenNumeral.digit]
    split <;> rfl
  · rfl

/-- Only a separator leaves a numeral without a digit. -/
theorem Grows.digitless (h : Grows format scan number c grown) (hdigitless : grown.Digitless) :
    number.fraction = none ∧ number.Digitless ∧ c = format.decimalSeparator ∧
      (format.classify c = .separator ∨ scan.touched?.isSome = true) ∧
      grown = { number with fraction := some [] } := by
  rcases h with rfl | ⟨hc, hclass, hnone, rfl⟩
  · exact absurd hdigitless (number.not_digitless_digit c)
  · refine ⟨hnone, ?_, hc, hclass, rfl⟩
    simpa [OpenNumeral.Digitless, OpenNumeral.numeral, hnone] using hdigitless

end Grows

/-- The numeral that is being read behind a step: a blank leaves it, and a digit or its separator
goes to the one that it touches or to a new one. -/
inductive Read (format : NumberFormat) (scan : Scan) (c : Char) : OpenNumeral → Bool → Prop
  | blank {number : OpenNumeral} {touched : Bool} (hblank : Text.isBlank c = true)
      (hcurrent : scan.current = .numeral number touched) : Read format scan c number false
  | touched {number grown : OpenNumeral} (hcurrent : scan.current = .numeral number true)
      (hgrows : Grows format scan number c grown) : Read format scan c grown true
  | new {grown : OpenNumeral} {closed : Scan} (htouched : scan.touched? = none)
      (hclose : scan.close = .ok closed)
      (hgrows : Grows format scan { start := scan.position } c grown) :
      Read format scan c grown true

theorem read_of_numeral {scan found : Scan} {c : Char} {number grown : OpenNumeral}
    (h : scan.numeral = .ok (found, number)) (hgrows : Grows format scan number c grown) :
    Read format scan c grown true := by
  rcases of_numeral h with ⟨htouched, _⟩ | ⟨htouched, hclose, rfl⟩
  · exact .touched (touched?_eq_some_iff.1 htouched) hgrows
  · exact .new htouched hclose hgrows

theorem read_of_separator {scan next : Scan} {c : Char} {number : OpenNumeral} {touched : Bool}
    (hc : c = format.decimalSeparator)
    (hclass : format.classify c = .separator ∨ scan.touched?.isSome = true)
    (h : scan.separator = .ok next) (hcurrent : next.current = .numeral number touched) :
    Read format scan c number touched := by
  obtain ⟨⟨found, old⟩, hnumeral, hrest⟩ := bind_eq_ok_iff.1 h
  obtain ⟨grown, hgrown, hpure⟩ := bind_eq_ok_iff.1 hrest
  cases hpure
  cases hcurrent
  rw [OpenNumeral.separator] at hgrown
  split at hgrown
  · rename_i hfraction
    cases hgrown
    exact read_of_numeral hnumeral (.inr ⟨hc, hclass, hfraction, rfl⟩)
  · cases hgrown

theorem read_of_start {scan next : Scan} {c : Char} {number : OpenNumeral} {touched : Bool}
    (h : start format scan c = .ok next) (hcurrent : next.current = .numeral number touched) :
    Read format scan c number touched := by
  cases starts_start format scan c with
  | completes hnext hstart =>
      rw [hstart] at h
      obtain ⟨closed, hclose, hpure⟩ := bind_eq_ok_iff.1 h
      obtain rfl := Except.ok.inj hpure
      exact absurd hcurrent (hnext closed number touched (of_close hclose).1)
  | leaves hblank hbefore hstart =>
      rw [hstart] at h
      obtain rfl := Except.ok.inj h
      obtain ⟨rfl, rfl⟩ := OpenToken.numeral.inj hcurrent
      exact .blank hblank hbefore
  | digit hstart =>
      rw [hstart] at h
      obtain ⟨⟨found, old⟩, hnumeral, hpure⟩ := bind_eq_ok_iff.1 h
      obtain rfl := Except.ok.inj hpure
      obtain ⟨rfl, rfl⟩ := OpenToken.numeral.inj hcurrent
      exact read_of_numeral hnumeral (.inl rfl)
  | separator hc hclass hstart =>
      rw [hstart] at h
      exact read_of_separator hc hclass h hcurrent
  | unknown _ hstart =>
      rw [hstart] at h
      cases h

theorem read_of_step {scan next : Scan} {c : Char} {number : OpenNumeral} {touched : Bool}
    (h : step format scan c = .ok next) (hcurrent : next.current = .numeral number touched) :
    Read format scan c number touched := by
  rcases step_cases format scan c with hstart | ⟨start, letters, hword⟩
  · rw [hstart] at h
    obtain ⟨found, hfound, hpure⟩ := bind_eq_ok_iff.1 h
    obtain rfl := Except.ok.inj hpure
    exact read_of_start hfound hcurrent
  · rw [hword] at h
    obtain rfl := Except.ok.inj h
    cases hcurrent

theorem position_of_step {scan next : Scan} {c : Char} (h : step format scan c = .ok next) :
    next.position = scan.position + 1 := by
  rcases step_cases format scan c with hstart | ⟨start, letters, hword⟩
  · rw [hstart] at h
    obtain ⟨found, _, hpure⟩ := bind_eq_ok_iff.1 h
    obtain rfl := Except.ok.inj hpure
    rfl
  · rw [hword] at h
    obtain rfl := Except.ok.inj h
    rfl

/-- The numeral behind the characters that have been read: in front of it everything is scanned,
and if it has no digit, it is a separator with blanks behind it. -/
structure Opened (format : NumberFormat) (before behind : List Char) (number : OpenNumeral)
    (touched : Bool) : Prop where
  start : number.start = before.length
  scanned : ∃ tokens, format.scan before = .ok tokens
  digitless : number.Digitless → number.fraction ≠ none ∧
    format.classify format.decimalSeparator = .separator ∧ format.Dangles before ∧
    ∃ blanks, behind = format.decimalSeparator :: blanks ∧
      (∀ blank ∈ blanks, Text.isBlank blank = true) ∧ touched = blanks.isEmpty

/-- Where the scanner stands behind a text. -/
structure Follows (format : NumberFormat) (text : List Char) (scan : Scan) : Prop where
  run : text.foldlM (step format) {} = .ok scan
  position : scan.position = text.length
  opened : ∀ number touched, scan.current = .numeral number touched →
    ∃ before behind, text = before ++ behind ∧ Opened format before behind number touched

theorem scan_of_run {text : List Char} {scan : Scan}
    (hrun : text.foldlM (step format) {} = .ok scan) :
    format.scan text = scan.close >>= fun closed => pure closed.tokens.reverse := by
  rw [NumberFormat.scan, hrun]
  rfl

theorem scanned_of_run {text : List Char} {scan closed : Scan}
    (hrun : text.foldlM (step format) {} = .ok scan) (hclose : scan.close = .ok closed) :
    ∃ tokens, format.scan text = .ok tokens := by
  rw [scan_of_run hrun, hclose]
  exact ⟨_, rfl⟩

theorem follows_nil : Follows format [] {} := ⟨rfl, rfl, fun _ _ hcurrent => nomatch hcurrent⟩

theorem foldlM_concat {text : List Char} {scan next : Scan} {c : Char}
    (hrun : text.foldlM (step format) {} = .ok scan) (hstep : step format scan c = .ok next) :
    (text ++ [c]).foldlM (step format) {} = .ok next := by
  rw [List.foldlM_append, hrun]
  exact bind_eq_ok_iff.2 ⟨scan, rfl, bind_eq_ok_iff.2 ⟨next, hstep, rfl⟩⟩

/-- A separator that begins a numeral lacks a digit. -/
theorem dangles_of_run {text : List Char} {scan : Scan}
    (hrun : (text ++ [format.decimalSeparator]).foldlM (step format) {} = .ok scan)
    (hcurrent : scan.current = .numeral ⟨text.length, [], some []⟩ true) :
    format.Dangles text := by
  obtain ⟨position, tokens, current⟩ := scan
  obtain rfl : current = _ := hcurrent
  constructor
  · rw [NumberFormat.scan, hrun]
    rfl
  · have hdigit : format.classify '0' = .digit := NumberFormat.classify_of_isDigit (by decide)
    have hstep : step format ⟨position, tokens, .numeral ⟨text.length, [], some []⟩ true⟩ '0' =
        .ok ⟨position + 1, tokens, .numeral ⟨text.length, [], some ['0']⟩ true⟩ := by
      simp only [step, start, hdigit]
      rfl
    have hmore := foldlM_concat hrun hstep
    rw [List.append_assoc] at hmore
    exact scanned_of_run hmore rfl

theorem Follows.step {text : List Char} {scan next : Scan} {c : Char}
    (h : Follows format text scan) (hstep : Scan.step format scan c = .ok next) :
    Follows format (text ++ [c]) next := by
  have hrun := foldlM_concat h.run hstep
  refine ⟨hrun, ?_, fun number touched hcurrent => ?_⟩
  · simp [position_of_step hstep, h.position]
  cases read_of_step hstep hcurrent with
  | blank hblank hbefore =>
      obtain ⟨before, behind, rfl, hopened⟩ := h.opened _ _ hbefore
      refine ⟨before, behind ++ [c], List.append_assoc .., hopened.start, hopened.scanned, ?_⟩
      intro hdigitless
      obtain ⟨hfraction, hclass, hdangles, blanks, rfl, hblanks, _⟩ :=
        hopened.digitless hdigitless
      refine ⟨hfraction, hclass, hdangles, blanks ++ [c], rfl, ?_, by simp⟩
      simpa [or_imp, forall_and, hblank] using hblanks
  | @touched old _ hbefore hgrows =>
      obtain ⟨before, behind, rfl, hopened⟩ := h.opened _ _ hbefore
      refine ⟨before, behind ++ [c], List.append_assoc .., hgrows.start.trans hopened.start,
        hopened.scanned, fun hdigitless => ?_⟩
      -- a numeral without a digit has its separator already
      obtain ⟨hnone, hold, _⟩ := hgrows.digitless hdigitless
      exact absurd hnone (hopened.digitless hold).1
  | @new _ closed htouched hclose hgrows =>
      refine ⟨text, [c], rfl, hgrows.start.trans h.position, scanned_of_run h.run hclose,
        fun hdigitless => ?_⟩
      obtain ⟨_, _, rfl, hclass, rfl⟩ := hgrows.digitless hdigitless
      rw [h.position] at hcurrent
      refine ⟨nofun, hclass.resolve_right ?_, dangles_of_run hrun hcurrent, [], rfl, nofun, rfl⟩
      simp [htouched]

theorem Follows.run_append {text rest : List Char} {scan next : Scan}
    (h : Follows format text scan) (hrun : rest.foldlM (Scan.step format) scan = .ok next) :
    Follows format (text ++ rest) next := by
  induction rest generalizing text scan with
  | nil =>
      obtain rfl := Except.ok.inj hrun
      rwa [List.append_nil]
  | cons c rest ih =>
      obtain ⟨middle, hstep, hrest⟩ := bind_eq_ok_iff.1 hrun
      rw [List.append_cons]
      exact ih (h.step hstep) hrest

/-- A numeral without a digit is refused where it begins, and what stands in front of it is
scanned. -/
theorem Follows.close_error {text : List Char} {scan : Scan} {error : ParseError}
    (h : Follows format text scan) (hclose : scan.close = .error error) :
    ∃ before blanks, text = before ++ format.decimalSeparator :: blanks ∧
      error.position = before.length ∧ (∃ tokens, format.scan before = .ok tokens) ∧
      format.Dangles before ∧ (∀ blank ∈ blanks, Text.isBlank blank = true) ∧
      (scan.touched?.isSome = true → blanks = []) := by
  obtain ⟨number, touched, hcurrent, hdigitless, rfl⟩ := close_eq_error_iff.1 hclose
  obtain ⟨before, behind, rfl, hopened⟩ := h.opened _ _ hcurrent
  obtain ⟨_, _, hdangles, blanks, rfl, hblanks, rfl⟩ := hopened.digitless hdigitless
  refine ⟨before, blanks, rfl, hopened.start, hopened.scanned, hdangles, hblanks, ?_⟩
  intro htouched
  obtain ⟨number, htouched⟩ := Option.isSome_iff_exists.1 htouched
  rw [touched?_eq_some_iff, hcurrent] at htouched
  simpa using (OpenToken.numeral.inj htouched).2

/-- In front of a fault the text is scanned, unless the fault overtakes a numeral. -/
def Reports (format : NumberFormat) (text : List Char) (position : Nat) : Prop :=
  (∃ tokens, format.scan (text.take position) = .ok tokens) ∨ format.OvertakenAt text position

theorem Follows.reports_close {text : List Char} {scan : Scan} {error : ParseError}
    (h : Follows format text scan) (hclose : scan.close = .error error) (rest : List Char) :
    Reports format (text ++ rest) error.position := by
  obtain ⟨before, blanks, rfl, hposition, hscanned, _⟩ := h.close_error hclose
  left
  rwa [hposition, List.append_assoc, List.take_left]

theorem Follows.reports_step {text : List Char} {scan : Scan} {c : Char} {error : ParseError}
    (h : Follows format text scan) (hstep : Scan.step format scan c = .error error)
    (rest : List Char) : Reports format (text ++ c :: rest) error.position := by
  rcases error_of_step hstep with hclose | ⟨hposition, hfault⟩
  · exact h.reports_close hclose (c :: rest)
  rw [hposition, h.position]
  cases hclose : scan.close with
  | ok closed =>
      left
      rw [List.take_left]
      exact scanned_of_run h.run hclose
  | error other =>
      obtain ⟨before, blanks, rfl, _, _, hdangles, hblanks, htouched⟩ := h.close_error hclose
      refine .inr ⟨before, blanks, c, rest, by simp, ?_, hdangles, hblanks, ?_⟩
      · simp only [List.length_append, List.length_cons]
        omega
      · exact hfault.imp_right (And.imp_right htouched)

theorem Follows.reports {text rest : List Char} {scan : Scan} {error : ParseError}
    (h : Follows format text scan)
    (hrun : (rest.foldlM (Scan.step format) scan >>= close) = .error error) :
    Reports format (text ++ rest) error.position := by
  induction rest generalizing text scan with
  | nil => exact h.reports_close hrun []
  | cons c rest ih =>
      rw [List.foldlM_cons, bind_assoc] at hrun
      rcases bind_eq_error_iff.1 hrun with hstep | ⟨next, hstep, hrest⟩
      · exact h.reports_step hstep rest
      · rw [List.append_cons]
        exact ih (h.step hstep) hrest

/-! Where a fault overtakes a numeral, it is the one that is reported. -/

theorem foldlM_blanks {blanks : List Char} (h : ∀ blank ∈ blanks, Text.isBlank blank = true)
    (position : Nat) (tokens : List Placed) (number : OpenNumeral) (touched : Bool) :
    blanks.foldlM (step format) ⟨position, tokens, .numeral number touched⟩ =
      .ok ⟨position + blanks.length, tokens, .numeral number (touched && blanks.isEmpty)⟩ := by
  induction blanks generalizing position touched with
  | nil => simp [pure, Except.pure]
  | cons blank blanks ih =>
      obtain ⟨hblank, hblanks⟩ := List.forall_mem_cons.1 h
      have hstep : step format ⟨position, tokens, .numeral number touched⟩ blank =
          .ok ⟨position + 1, tokens, .numeral number false⟩ := by
        simp only [step, start, NumberFormat.classify_of_isBlank hblank]
        rfl
      rw [List.foldlM_cons, hstep]
      refine (ih hblanks (position + 1) false).trans ?_
      simp [Nat.add_right_comm, Nat.add_assoc]

/-- A separator that dangles leaves a numeral with no digit, and the blanks behind it do too. -/
theorem run_of_dangles {before blanks : List Char} (h : format.Dangles before)
    (hblanks : ∀ blank ∈ blanks, Text.isBlank blank = true) :
    format.classify format.decimalSeparator = .separator ∧ ∃ tokens number,
      (before ++ format.decimalSeparator :: blanks).foldlM (step format) {} =
        .ok ⟨before.length + 1 + blanks.length, tokens, .numeral number blanks.isEmpty⟩ ∧
      number.Digitless ∧ number.fraction ≠ none := by
  obtain ⟨found, hcompleted⟩ := h.completed
  obtain ⟨last, hlast, _⟩ := bind_eq_ok_iff.1 hcompleted
  rw [← List.singleton_append, ← List.append_assoc, List.foldlM_append] at hlast
  obtain ⟨⟨position, tokens, current⟩, hrun, _⟩ := bind_eq_ok_iff.1 hlast
  have hfollows : Follows format (before ++ [format.decimalSeparator])
      ⟨position, tokens, current⟩ := follows_nil.run_append hrun
  have hlacking := h.lacking
  rw [scan_of_run hrun] at hlacking
  rcases bind_eq_error_iff.1 hlacking with hclose | ⟨_, _, hpure⟩
  · obtain ⟨number, touched, hcurrent, hdigitless, herror⟩ := close_eq_error_iff.1 hclose
    obtain ⟨other, behind, htext, hopened⟩ := hfollows.opened _ _ hcurrent
    obtain ⟨hfraction, hclass, _, between, rfl, _, rfl⟩ := hopened.digitless hdigitless
    have hstart : before.length = number.start := (ParseError.mk.inj herror).2
    obtain ⟨rfl, hbehind⟩ := List.append_inj htext (hstart.trans hopened.start)
    obtain rfl : [] = between := (List.cons.inj hbehind).2
    obtain rfl : current = .numeral number true := hcurrent
    obtain rfl : position = before.length + 1 := by simpa using hfollows.position
    refine ⟨hclass, tokens, number, ?_, hdigitless, hfraction⟩
    rw [List.append_cons, List.foldlM_append]
    exact bind_eq_ok_iff.2 ⟨_, hrun, foldlM_blanks hblanks _ tokens number true⟩
  · cases hpure

theorem step_second_separator {number : OpenNumeral} (hfraction : number.fraction ≠ none)
    (hclass : format.classify format.decimalSeparator = .separator) (position : Nat)
    (tokens : List Placed) :
    step format ⟨position, tokens, .numeral number true⟩ format.decimalSeparator =
      .error ⟨.invalidNumber, position⟩ := by
  obtain ⟨digits, hdigits⟩ := Option.ne_none_iff_exists'.1 hfraction
  have hseparator : number.separator position = .error ⟨.invalidNumber, position⟩ := by
    simp only [OpenNumeral.separator, hdigits]
    rfl
  simp only [step, start, hclass, separator_touched, hseparator]
  rfl

theorem step_unknown {c : Char} (hclass : format.classify c = .other) (position : Nat)
    (tokens : List Placed) (number : OpenNumeral) (touched : Bool) :
    step format ⟨position, tokens, .numeral number touched⟩ c =
      .error ⟨.unknownCharacter c, position⟩ := by
  simp only [step, start, hclass]
  rfl

/-- A fault that overtakes a numeral is reported, although the text in front of it is refused. -/
theorem reports_of_overtakenAt {text : List Char} {position : Nat}
    (h : format.OvertakenAt text position) :
    (∃ error, format.scan (text.take position) = .error error) ∧
      ∃ fault, format.scan text = .error ⟨fault, position⟩ := by
  obtain ⟨before, blanks, c, rest, rfl, rfl, hdangles, hblanks, hfault⟩ := h
  obtain ⟨hclass, tokens, number, hrun, hdigitless, hfraction⟩ := run_of_dangles hdangles hblanks
  rw [← List.cons_append, ← List.append_assoc]
  have hlength : before.length + 1 + blanks.length =
      (before ++ format.decimalSeparator :: blanks).length := by
    simp only [List.length_append, List.length_cons]
    omega
  constructor
  · have hclose : (Scan.mk (before.length + 1 + blanks.length) tokens
        (.numeral number blanks.isEmpty)).close = .error ⟨.invalidNumber, number.start⟩ :=
      close_eq_error_iff.2 ⟨number, blanks.isEmpty, rfl, hdigitless, rfl⟩
    rw [hlength, List.take_left, scan_of_run hrun, hclose]
    exact ⟨_, rfl⟩
  · obtain ⟨fault, hstep⟩ : ∃ fault, step format ⟨before.length + 1 + blanks.length, tokens,
        .numeral number blanks.isEmpty⟩ c = .error ⟨fault, before.length + 1 + blanks.length⟩ := by
      rcases hfault with hother | ⟨rfl, rfl⟩
      · exact ⟨_, step_unknown hother _ tokens number _⟩
      · exact ⟨_, step_second_separator hfraction hclass _ tokens⟩
    refine ⟨fault, bind_eq_error_iff.2 (.inl ?_)⟩
    rw [List.foldlM_append, hrun]
    exact bind_eq_error_iff.2 (.inr ⟨_, rfl, bind_eq_error_iff.2 (.inl hstep)⟩)

end Scan

/-- What stands in front of the fault that is reported is scanned, unless the fault overtakes a
numeral without a digit; and every fault that does so is reported. -/
theorem tokenize_first_problem (format : NumberFormat) (source : String) :
    (∀ error, tokenize format source = .error error →
      ((∃ tokens, tokenize format (String.ofList (source.toList.take error.position)) =
          .ok tokens) ↔ ¬ format.OvertakenAt source.toList error.position)) ∧
    ∀ position, format.OvertakenAt source.toList position →
      ∃ fault, tokenize format source = .error ⟨fault, position⟩ := by
  refine ⟨fun error herror => ?_, fun position h => (Scan.reports_of_overtakenAt h).2⟩
  rw [tokenize, String.toList_ofList]
  constructor
  · rintro ⟨tokens, hok⟩ hovertaken
    obtain ⟨other, hother⟩ := (Scan.reports_of_overtakenAt hovertaken).1
    rw [hok] at hother
    cases hother
  · intro hnot
    have hreports : Scan.Reports format ([] ++ source.toList) error.position := by
      apply Scan.follows_nil.reports
      rw [tokenize, NumberFormat.scan, ← bind_assoc] at herror
      rcases bind_eq_error_iff.1 herror with hrun | ⟨_, _, hpure⟩
      · exact hrun
      · cases hpure
    exact hreports.resolve_right hnot

/-- A separator without digits is reported at the end of a text, and not in front of a character
that is unknown. -/
theorem tokenize_first_problem_lastSeparator :
    (tokenize ⟨'.'⟩ "1+." = .error ⟨.invalidNumber, 2⟩ ∧
      ¬ NumberFormat.OvertakenAt ⟨'.'⟩ "1+.".toList 2) ∧
    ∃ fault, tokenize ⟨'.'⟩ "1+. ?" = .error ⟨fault, 4⟩ := by
  have herror : tokenize ⟨'.'⟩ "1+." = .error ⟨.invalidNumber, 2⟩ := rfl
  have hdangles : NumberFormat.Dangles ⟨'.'⟩ ['1', '+'] := ⟨rfl, _, rfl⟩
  have hblank : ∀ blank ∈ [' '], Text.isBlank blank = true :=
    List.forall_mem_singleton.2 (by decide)
  have hovertaken : NumberFormat.OvertakenAt ⟨'.'⟩ "1+. ?".toList 4 :=
    ⟨['1', '+'], [' '], '?', [], rfl, rfl, hdangles, hblank, .inl rfl⟩
  constructor
  · exact ⟨herror, ((tokenize_first_problem ⟨'.'⟩ "1+.").1 _ herror).1 ⟨_, rfl⟩⟩
  · exact (tokenize_first_problem ⟨'.'⟩ "1+. ?").2 4 hovertaken

/-- A separator without digits is overtaken by the character behind it. -/
theorem overtaken_separator : ¬ ∀ (format : NumberFormat) (source : String) (error : ParseError),
    tokenize format source = .error error →
      ∃ tokens, tokenize format (String.ofList (source.toList.take error.position)) =
        .ok tokens := by
  intro hfirst
  obtain ⟨tokens, htokens⟩ := hfirst ⟨'.'⟩ ".?" ⟨.unknownCharacter '?', 1⟩ rfl
  cases htokens

end Formula
