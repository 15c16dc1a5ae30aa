/-
White space between tokens.  Blanks that are put in front of tokens move the tokens behind them
and do nothing else: the moved tokens are scanned, and parsed to the same tree.
-/
import Formula.Proofs.Relocation
import Formula.Proofs.Scanning.Streaming

namespace Formula

/-- A text with characters put in: those of a gap go in front of the character at its index, and
those of the gap behind the last character to the end. -/
def spread (gap : Nat → List Char) (index : Nat) : List Char → List Char
  | [] => gap index
  | c :: rest => gap index ++ c :: spread gap (index + 1) rest

/-- How many characters are put in before the gap at an index. -/
def inserted (gap : Nat → List Char) : Nat → Nat
  | 0 => 0
  | index + 1 => inserted gap index + (gap index).length

/-- The place that the character at a position moves to. -/
def displace (gap : Nat → List Char) (position : Nat) : Nat :=
  position + inserted gap (position + 1)

theorem Text.isDecimalDigit_of_isBlank {c : Char} (h : isBlank c = true) :
    isDecimalDigit c = false := by
  unfold isDecimalDigit
  split
  · cases hdigit : c.isDigit with
    | false => rfl
    | true =>
        rw [isBlank_of_isDigit hdigit] at h
        cases h
  · rw [isBlank_eq] at h
    exact inRanges_eq_false_of_apart (by decide +kernel) h

theorem Text.isWord_of_isBlank {c : Char} (h : isBlank c = true) : isWord c = false := by
  rw [isWord, isLetter_of_isBlank h, isDecimalDigit_of_isBlank h]
  rfl

section Spread

variable {gap : Nat → List Char} {first : Nat} {run : List Char}

theorem spread_run (hrun : ∀ index, first ≤ index → index < first + run.length → gap index = [])
    (tail : List Char) :
    spread gap first (run ++ tail) = run ++ spread gap (first + run.length) tail := by
  induction run generalizing first with
  | nil => rfl
  | cons c run ih =>
      rw [List.length_cons] at hrun
      have hfirst : gap first = [] := hrun first (Nat.le_refl _) (by omega)
      have hrest : spread gap (first + 1) (run ++ tail) =
          run ++ spread gap (first + 1 + run.length) tail :=
        ih fun index hlow hhigh => hrun index (by omega) (by omega)
      rw [List.cons_append, spread, hfirst, hrest, List.length_cons, Nat.add_right_comm]
      rfl

theorem inserted_run {length : Nat}
    (hrun : ∀ index, first ≤ index → index < first + length → gap index = []) :
    inserted gap (first + length) = inserted gap first := by
  induction length with
  | zero => rfl
  | succ length ih =>
      have hlast := hrun (first + length) (by omega) (by omega)
      rw [← Nat.add_assoc, inserted, hlast, ih fun index hlow hhigh => hrun index hlow (by omega)]
      rfl

theorem head?_spread {text : List Char} {c : Char} (h : c ∈ (spread gap first text).head?) :
    c ∈ gap first ∨ c ∈ text.head? := by
  cases text with
  | nil => exact .inl (List.mem_of_head? h)
  | cons d rest =>
      rw [spread] at h
      cases hgap : gap first with
      | nil =>
          rw [hgap] at h
          exact .inr h
      | cons blank blanks =>
          rw [hgap] at h
          obtain rfl : blank = c := Option.some.inj h
          exact .inl List.mem_cons_self

/-- A run ends where it has ended, or at a blank that has been put in. -/
theorem ends_of_mem_head?_spread (first : Nat) {stays : Char → Bool} {text : List Char}
    (hstays : ∀ c, Text.isBlank c = true → stays c = false)
    (hblank : ∀ index, ∀ c ∈ gap index, Text.isBlank c = true)
    (htext : ∀ c ∈ text.head?, stays c = false) :
    ∀ c ∈ (spread gap first text).head?, stays c = false := by
  intro c hc
  rcases head?_spread hc with hgap | hhead
  · exact hstays c (hblank first c hgap)
  · exact htext c hhead

end Spread

/-- From a position on, gaps are in front of tokens or at the end. -/
def Between (gap : Nat → List Char) (position : Nat) (text : List Char) (tokens : List Placed) :
    Prop :=
  ∀ index, position ≤ index → gap index ≠ [] →
    index = position + text.length ∨ ∃ placed ∈ tokens, placed.position = index

theorem Between.tail {gap : Nat → List Char} {position : Nat} {c : Char} {rest : List Char}
    {tokens : List Placed} (h : Between gap position (c :: rest) tokens) :
    Between gap (position + 1) rest tokens := by
  intro index hlow hne
  have hstands := h index (Nat.le_of_succ_le hlow) hne
  rwa [List.length_cons, Nat.add_comm rest.length, ← Nat.add_assoc] at hstands

namespace NumberFormat

variable {format : NumberFormat} {gap : Nat → List Char}

/-- No gap is inside of a token. -/
theorem Munches.between {position : Nat} {c : Char} {run rest : List Char} {token : Token}
    {tokens : List Placed} (h : format.Munches (position + 1 + run.length) rest tokens)
    (hgaps : Between gap position (c :: (run ++ rest)) (⟨token, position⟩ :: tokens)) :
    (∀ index, position + 1 ≤ index → index < position + 1 + run.length → gap index = []) ∧
      Between gap (position + 1 + run.length) rest tokens := by
  have hbehind : ∀ index, position + 1 ≤ index → gap index ≠ [] →
      index = position + 1 + run.length + rest.length ∨
        ∃ placed ∈ tokens, placed.position = index := by
    intro index hlow hne
    rcases hgaps index (by omega) hne with hend | ⟨placed, hplaced, hposition⟩
    · rw [List.length_cons, List.length_append] at hend
      exact .inl (by omega)
    · rcases List.mem_cons.1 hplaced with rfl | hplaced
      · exact absurd hposition (by dsimp only; omega)
      · exact .inr ⟨placed, hplaced, hposition⟩
  constructor
  · intro index hlow hhigh
    by_contra hne
    rcases hbehind index hlow hne with hend | ⟨placed, hplaced, hposition⟩
    · omega
    · have hstart := (h.position_of_mem placed hplaced).1
      omega
  · exact fun index hlow hne => hbehind index (by omega) hne

theorem Munches.blanks {blanks : List Char} (hblanks : ∀ c ∈ blanks, Text.isBlank c = true)
    {position : Nat} {rest : List Char} {tokens : List Placed}
    (h : format.Munches (position + blanks.length) rest tokens) :
    format.Munches position (blanks ++ rest) tokens := by
  induction blanks generalizing position with
  | nil => exact h
  | cons c blanks ih =>
      obtain ⟨hc, hrest⟩ := List.forall_mem_cons.1 hblanks
      rw [List.length_cons, Nat.add_comm blanks.length, ← Nat.add_assoc] at h
      exact .blank hc (ih hrest h)

/-- Blanks in front of tokens move the tokens. -/
theorem Munches.spread (hblank : ∀ index, ∀ c ∈ gap index, Text.isBlank c = true)
    {position : Nat} {text : List Char} {tokens : List Placed}
    (h : format.Munches position text tokens) (hgaps : Between gap position text tokens) :
    format.Munches (position + inserted gap position) (spread gap position text)
      (tokens.map (Placed.moved (displace gap))) := by
  have hbehind : ∀ {position rest tokens}, format.Munches (displace gap position) rest tokens →
      format.Munches (position + inserted gap position) (gap position ++ rest) tokens := by
    intro position rest tokens hrest
    rw [displace, inserted, ← Nat.add_assoc] at hrest
    exact hrest.blanks (hblank position)
  have hplace : ∀ {position length},
      (∀ index, position + 1 ≤ index → index < position + 1 + length → gap index = []) →
      position + 1 + length + inserted gap (position + 1 + length) =
        displace gap position + 1 + length := by
    intro position length hrun
    rw [inserted_run hrun, displace]
    omega
  induction h with
  | @nil position =>
      have hend : format.Munches (displace gap position) [] [] := .nil
      have hgap := hbehind hend
      rwa [List.append_nil] at hgap
  | @blank position c rest tokens hc h ih =>
      have hmoved := ih hgaps.tail
      rw [Nat.add_right_comm] at hmoved
      exact hbehind (.blank hc hmoved)
  | @mark position c token rest tokens hmark h ih =>
      have hmoved := ih (@Munches.between format gap position c [] rest token tokens h hgaps).2
      rw [Nat.add_right_comm] at hmoved
      exact hbehind (.mark hmark hmoved)
  | @name position c run rest tokens hletter hrun hends h ih =>
      obtain ⟨hinside, hrest⟩ := h.between hgaps
      have hmoved := ih hrest
      rw [hplace hinside] at hmoved
      -- the run is kept whole, and a blank that follows it now ends it as well
      have hmovedEnds := ends_of_mem_head?_spread (position + 1 + run.length)
        (fun c => Text.isWord_of_isBlank) hblank hends
      rw [Formula.spread, spread_run hinside]
      exact hbehind (.name hletter hrun hmovedEnds hmoved)
  | @number position c run rest value tokens hstarts hrun hends hvalue h ih =>
      obtain ⟨hinside, hrest⟩ := h.between hgaps
      have hmoved := ih hrest
      rw [hplace hinside] at hmoved
      have hmovedEnds := ends_of_mem_head?_spread (position + 1 + run.length)
        (fun c => continues_of_isBlank) hblank hends
      rw [Formula.spread, spread_run hinside]
      exact hbehind (.number hstarts hrun hmovedEnds hvalue hmoved)

end NumberFormat

/-- White space in front of tokens and at the end is irrelevant.  The tokens move by as many
characters as are put in before them, the tree is the same, and a fault moves with its
token, since the parser does not look at positions. -/
theorem parse_spread {format : NumberFormat} (settings : Settings) {source : String}
    {tokens : List Placed} {gap : Nat → List Char}
    (htokenize : tokenize format source = .ok tokens)
    (hblank : ∀ index, ∀ c ∈ gap index, Text.isBlank c = true)
    (hgaps : ∀ index, gap index ≠ [] →
      index = source.length ∨ ∃ placed ∈ tokens, placed.position = index) :
    tokenize format (String.ofList (spread gap 0 source.toList)) =
        .ok (tokens.map (Placed.moved (displace gap))) ∧
      parse format settings (String.ofList (spread gap 0 source.toList)) =
        (parse format settings source).mapError (ParseError.moved (displace gap)) ∧
      ∀ move others, settings.parseTokens (others.map (Placed.moved move)) =
        (settings.parseTokens others).mapError (ParseError.moved move) := by
  have hmunches := NumberFormat.munch_eq_some_iff.1 (munch_of_tokenize htokenize)
  have hbetween : Between gap 0 source.toList tokens := by
    intro index _ hne
    rw [Nat.zero_add, String.length_toList]
    exact hgaps index hne
  have hmoved : tokenize format (String.ofList (spread gap 0 source.toList)) =
      .ok (tokens.map (Placed.moved (displace gap))) := by
    rw [tokenize, ← toOption_eq_some_iff, format.toOption_scan, String.toList_ofList,
      NumberFormat.munch_eq_some_iff]
    exact hmunches.spread hblank hbetween
  refine ⟨hmoved, ?_, settings.parseTokens_moved⟩
  rw [parse, parse, hmoved, htokenize]
  exact settings.parseTokens_moved (displace gap) tokens

/-- The tokens of `abs(,1,5)` with decimal commas: the second comma belongs to the number. -/
def missingArgument : List Placed :=
  [⟨.identifier "abs", 0⟩, ⟨.openParen, 3⟩, ⟨.comma, 4⟩,
    ⟨.number (Binary64.ofCode false (Numeral.code ⟨['1'], ['5']⟩)), 5⟩, ⟨.closeParen, 8⟩]

theorem tokenize_missingArgument : tokenize ⟨','⟩ "abs(,1,5)" = .ok missingArgument := rfl

theorem parse_missingArgument :
    parse ⟨','⟩ .standard "abs(,1,5)" = .error ⟨.emptyArgument, 4⟩ := by
  let one : Placed := ⟨.number (Binary64.ofCode false (Numeral.code ⟨['1'], ['5']⟩)), 5⟩
  have hsplit : splitArguments 0 [] [⟨.comma, 4⟩, one, ⟨.closeParen, 8⟩] =
      ([⟨[], 4⟩, ⟨[one], 8⟩], some []) := rfl
  have hparse : Settings.standard.parseTokens missingArgument = .error ⟨.emptyArgument, 4⟩ := by
    rw [Settings.parseTokens, missingArgument, Settings.parseNested_of_le (Nat.zero_le _),
      collapseCalls_call hsplit]
    rfl
  rw [parse, tokenize_missingArgument]
  exact hparse

/-- A space and a tab around the first comma, and a line break at the end. -/
def commaGap : Nat → List Char
  | 4 => [' ']
  | 5 => ['\t']
  | 9 => ['\n']
  | _ => []

theorem parse_spread_commaGap :
    tokenize ⟨','⟩ "abs( ,\t1,5)\n" =
        .ok (missingArgument.map (Placed.moved (displace commaGap))) ∧
      parse ⟨','⟩ .standard "abs( ,\t1,5)\n" = .error ⟨.emptyArgument, 5⟩ := by
  have hblank : ∀ index, ∀ c ∈ commaGap index, Text.isBlank c = true := by
    intro index c hc
    unfold commaGap at hc
    split at hc <;> simp only [List.mem_cons, List.not_mem_nil, or_false] at hc <;>
      (rw [hc]; decide)
  have hgaps : ∀ index, commaGap index ≠ [] →
      index = "abs(,1,5)".length ∨ ∃ placed ∈ missingArgument, placed.position = index := by
    intro index hne
    unfold commaGap at hne
    split at hne
    · exact .inr ⟨⟨.comma, 4⟩, by simp [missingArgument], rfl⟩
    · exact .inr ⟨_, List.mem_cons_of_mem _ (List.mem_cons_of_mem _ (List.mem_cons_of_mem _
        List.mem_cons_self)), rfl⟩
    · exact .inl rfl
    · exact absurd rfl hne
  obtain ⟨htokens, hmoved, _⟩ := parse_spread .standard tokenize_missingArgument hblank hgaps
  rw [parse_missingArgument] at hmoved
  exact ⟨htokens, hmoved⟩

end Formula
