/-
Printing and parsing again.  What the scanner yields is legible in its own format and
in every format whose separator is read as one, so a parsed tree is scanned again as
its tokens, and these are read as the tree.
-/
import Formula.Proofs.Printing.Rereading
import Formula.Proofs.Printing.Text
import Mathlib.Data.List.TakeWhile

namespace Formula

namespace NumberFormat

variable {format : NumberFormat}

/-- Numbers that are read: without a separator, whole ones alone. -/
def Reads (format : NumberFormat) (value : Float) : Prop :=
  ∃ code ≤ Binary64.infinity, value = Binary64.ofCode false code ∧
    (format.reads = true ∨ Binary64.unitsPerOne ∣ Binary64.units code)

/-- Tokens that are scanned. -/
def Scanned (format : NumberFormat) : Token → Prop
  | .number value => format.Reads value
  | .identifier name => Text.isName name.toList = true
  | .group _ | .call _ => False
  | _ => True

theorem isScanned_of_scanned {token : Token} (h : format.Scanned token) :
    token.isScanned = true := by
  cases token <;> first | rfl | cases h

theorem reads_of_continues {c : Char} (h : format.continues c = true) (hdigit : c.isDigit = false) :
    format.reads = true := by
  simp only [continues, hdigit, Bool.false_or, Bool.or_eq_true, Bool.and_eq_true,
    decide_eq_true_eq] at h
  rcases h with hseparates | ⟨-, hcomma⟩
  · rw [reads, ← (eq_of_separates hseparates).1, hseparates]
    rfl
  · simp [reads, hcomma]

theorem reads_of_literal? {run : List Char} (hne : run ≠ [])
    (hrun : ∀ c ∈ run, format.continues c = true) {value : Float}
    (h : literal? run = some value) : format.Reads value := by
  rcases digits_or_other run with hdigits | ⟨whole, separator, rest, rfl, hwhole, hseparator⟩
  · rw [literal?_whole hdigits hne] at h
    obtain rfl := Option.some.inj h
    exact ⟨_, Numeral.code_le_infinity _, rfl, .inr (Numeral.unitsPerOne_dvd_code run)⟩
  · have hreads := reads_of_continues (hrun separator (by simp)) hseparator
    rw [literal?_fraction hwhole hseparator] at h
    split at h
    · obtain rfl := Option.some.inj h
      exact ⟨_, Numeral.code_le_infinity _, rfl, .inl hreads⟩
    · cases h

theorem scanned_of_mark? {c : Char} {token : Token} (h : Token.mark? c = some token) :
    format.Scanned token := by
  unfold Token.mark? at h
  split at h <;> cases h <;> trivial

/-- All tokens of a text are scanned ones. -/
theorem scanned_of_mem_munch {position : Nat} {text : List Char} {tokens : List Placed}
    (h : format.munch position text = some tokens) :
    ∀ placed ∈ tokens, format.Scanned placed.token := by
  rw [munch_eq_some_iff] at h
  induction h with
  | nil => exact fun placed hplaced => by cases hplaced
  | blank hblank h ih => exact ih
  | mark hmark h ih => exact List.forall_mem_cons.2 ⟨scanned_of_mark? hmark, ih⟩
  | name hletter hrun hends h ih =>
      refine List.forall_mem_cons.2 ⟨?_, ih⟩
      rw [Scanned, String.toList_ofList, Text.isName, hletter, Bool.true_and]
      exact List.all_eq_true.2 hrun
  | @number position c run rest value tokens hstarts hrun hends hvalue h ih =>
      refine List.forall_mem_cons.2 ⟨?_, ih⟩
      have hfirst : format.continues c = true := by
        rw [continues, ← startsNumber, hstarts, Bool.true_or]
      exact reads_of_literal? (List.cons_ne_nil _ _) (List.forall_mem_cons.2 ⟨hfirst, hrun⟩)
        (literal?_eq_some_iff.2 hvalue)

/-- A separator that no other class of characters claims, but perhaps the comma. -/
def Standalone (format : NumberFormat) : Prop :=
  format.decimalSeparator.isDigit = false ∧ Text.isLetter format.decimalSeparator = false ∧
    Text.isBlank format.decimalSeparator = false ∧
    format.decimalSeparator ∉ ['+', '-', '*', '/', '%', '^', '(', ')']

theorem Standalone.reads_eq_true (h : format.Standalone) : format.reads = true := by
  obtain ⟨hdigit, hletter, hblank, hmark⟩ := h
  by_cases hcomma : format.decimalSeparator = ','
  · simp [reads, hcomma]
  · have hnone : Token.mark? format.decimalSeparator = none := by
      simp only [List.mem_cons, List.not_mem_nil, or_false, not_or] at hmark
      unfold Token.mark?
      split <;> simp_all
    simp [reads, separates, hdigit, hletter, hblank, hnone]

/-- A number that is read in one format is kept by another, if it is the same or has a
separator of its own. -/
theorem Reads.keeps {other : NumberFormat} {value : Float} (h : format.Reads value)
    (hother : other = format ∨ other.Standalone) : other.Keeps value := by
  obtain ⟨code, hle, rfl, hreads⟩ := h
  refine ⟨code, hle, rfl, fun hfinite => ?_⟩
  rcases hother with rfl | hstandalone
  · rcases hreads with hreads | hwhole
    · exact .inr hreads
    · exact .inl (Numeral.fraction_shortest hle hwhole)
  · exact .inr hstandalone.reads_eq_true

end NumberFormat

variable {format : NumberFormat} {settings : Settings}

theorem parse_eq_ok_iff {source : String} {tree : Expr} :
    parse format settings source = .ok tree ↔
      ∃ tokens, format.munch 0 source.toList = some tokens ∧
        settings.parseTokens tokens = .ok tree := by
  have hscan : ∀ tokens, tokenize format source = .ok tokens ↔
      format.munch 0 source.toList = some tokens := by
    intro tokens
    rw [tokenize, ← format.toOption_scan, toOption_eq_some_iff]
  simp only [parse, bind_eq_ok_iff, hscan]

namespace Expr

/-- What is derived from scanned tokens is legible. -/
theorem legible_of_derives {other : NumberFormat} (hother : other = format ∨ other.Standalone)
    {tokens : List Placed} {tree : Expr} (h : Derives settings (.formula tree) tokens)
    (hscanned : ∀ placed ∈ tokens, format.Scanned placed.token) : tree.Legible other := by
  have hplain : ∀ placed ∈ tokens, placed.token.isScanned = true := fun placed hplaced =>
    NumberFormat.isScanned_of_scanned (hscanned placed hplaced)
  refine h.scanned_induction hplain ?_ ?_ ?_ (fun _ => .block) (fun _ _ => .unary)
    fun _ _ _ => .binary
  · intro placed hplaced value htoken
    have hread := hscanned placed hplaced
    rw [htoken] at hread
    exact .number (NumberFormat.Reads.keeps hread hother)
  · intro placed hplaced name htoken
    have hname := hscanned placed hplaced
    rw [htoken] at hname
    exact .var hname
  · intro name arguments function hfunction hname harguments
    cases hname with
    | var hname =>
        obtain rfl := hfunction.1.1
        exact .call hname harguments

mutual

/-- The numbers of a tree, from left to right. -/
def literals : Expr → List Float
  | number value => [value]
  | var _ => []
  | call _ arguments _ => allLiterals arguments
  | block inner => literals inner
  | unary _ operand => literals operand
  | binary _ left right => literals left ++ literals right

def allLiterals : List Expr → List Float
  | [] => []
  | expr :: rest => literals expr ++ allLiterals rest

end

mutual

/-- A tree without overflowed numbers is written as it is. -/
theorem asWritten_of_finite (tree : Expr)
    (h : ∀ value ∈ tree.literals, Binary64.isFinite value = true) : tree.asWritten = tree := by
  cases tree with
  | number value =>
      have hfinite := of_decide_eq_true (h value List.mem_cons_self)
      exact if_neg (Nat.ne_of_lt hfinite)
  | var name => rfl
  | call name arguments implementation =>
      rw [asWritten, allAsWritten_of_finite arguments h]
  | block inner => rw [asWritten, asWritten_of_finite inner h]
  | unary op operand => rw [asWritten, asWritten_of_finite operand h]
  | binary op left right =>
      obtain ⟨hleft, hright⟩ := List.forall_mem_append.1 h
      rw [asWritten, asWritten_of_finite left hleft, asWritten_of_finite right hright]

theorem allAsWritten_of_finite (trees : List Expr)
    (h : ∀ value ∈ allLiterals trees, Binary64.isFinite value = true) :
    allAsWritten trees = trees := by
  cases trees with
  | nil => rfl
  | cons first rest =>
      obtain ⟨hfirst, hrest⟩ := List.forall_mem_append.1 h
      rw [allAsWritten, asWritten_of_finite first hfirst, allAsWritten_of_finite rest hrest]

end

end Expr

/-- A parsed formula that is written is parsed again, to the same tree, in which
overflowed numbers have become names. -/
theorem parse_render {source : String} {tree : Expr}
    (h : parse format settings source = .ok tree) (layout : Layout)
    (hformat : layout.format = format ∨ layout.format.Standalone) :
    parse layout.format settings (tree.render layout) = .ok tree.asWritten ∧
      ((∀ value ∈ tree.literals, Binary64.isFinite value = true) →
        parse layout.format settings (tree.render layout) = .ok tree) := by
  have hwritten : parse layout.format settings (tree.render layout) = .ok tree.asWritten := by
    obtain ⟨tokens, hmunch, hparse⟩ := parse_eq_ok_iff.1 h
    have hscanned := NumberFormat.scanned_of_mem_munch hmunch
    have hisScanned : ∀ placed ∈ tokens, placed.token.isScanned = true :=
      fun placed hplaced => NumberFormat.isScanned_of_scanned (hscanned placed hplaced)
    obtain ⟨hderives, hdepth, hlevels⟩ := (Settings.parseTokens_of_scanned hisScanned).1 hparse
    have hlegible : tree.Legible layout.format := Expr.legible_of_derives hformat hderives hscanned
    obtain ⟨written, hmunchWritten, htokens⟩ :=
      hlegible.scans NumberFormat.yields_nil NumberFormat.parts_nil 0
    rw [List.append_nil] at hmunchWritten htokens
    have hisScannedWritten : ∀ placed ∈ written, placed.token.isScanned = true := by
      intro placed hplaced
      apply tree.isScanned_of_mem_tokens
      rw [← htokens]
      exact List.mem_map_of_mem hplaced
    refine parse_eq_ok_iff.2 ⟨written, ?_, (Settings.parseTokens_of_scanned hisScannedWritten).2
      ⟨hderives.asWritten hisScanned htokens, ?_, ?_⟩⟩
    · rw [Expr.render, String.toList_ofList]
      exact hmunchWritten
    · rw [Expr.countedDepth_asWritten]
      exact hdepth
    · rw [Expr.levels_asWritten]
      exact hlevels
  refine ⟨hwritten, fun hfinite => ?_⟩
  rw [hwritten, tree.asWritten_of_finite hfinite]

/-- The tree of `min(1.5, x)`. -/
def smallerTree : Expr :=
  Builtin.min.definition.call
    [.number (Binary64.ofCode false (Numeral.code ⟨['1'], ['5']⟩)), .var "x"]

theorem parse_smallerTree_of_munch {format : NumberFormat} {source : String} {a b c d e f : Nat}
    (hmunch : format.munch 0 source.toList = some [⟨.identifier "min", a⟩, ⟨.openParen, b⟩,
      ⟨.number (Binary64.ofCode false (Numeral.code ⟨['1'], ['5']⟩)), c⟩, ⟨.comma, d⟩,
      ⟨.identifier "x", e⟩, ⟨.closeParen, f⟩]) :
    parse format .standard source = .ok smallerTree := by
  let value := Binary64.ofCode false (Numeral.code ⟨['1'], ['5']⟩)
  let tokens : List Placed := [⟨.identifier "min", a⟩, ⟨.openParen, b⟩, ⟨.number value, c⟩,
    ⟨.comma, d⟩, ⟨.identifier "x", e⟩, ⟨.closeParen, f⟩]
  have hscanned : ∀ placed ∈ tokens, placed.token.isScanned = true := by
    simp [tokens, Token.isScanned]
  have hvalue : Derives .standard (.formula (.number value)) [⟨.number value, c⟩] :=
    .of_value (.token rfl)
  have hname : Derives .standard (.formula (.var "x")) [⟨.identifier "x", e⟩] :=
    .of_value (.token rfl)
  have hcall : Derives .standard (.value smallerTree) tokens :=
    .call (.argument hvalue (.lastArgument hname)) (Settings.function?_eq_some_iff.1 rfl)
  have hformula : Derives .standard (.formula smallerTree) tokens := .of_value hcall
  exact parse_eq_ok_iff.2 ⟨tokens, hmunch,
    (Settings.parseTokens_of_scanned hscanned).2 ⟨hformula, by decide, by decide⟩⟩

theorem parse_smallerTree : parse ⟨'.'⟩ .standard "min(1.5, x)" = .ok smallerTree := by
  refine parse_smallerTree_of_munch (a := 0) (b := 3) (c := 4) (d := 7) (e := 9) (f := 10) ?_
  rw [← NumberFormat.toOption_scan]
  rfl

/-- With a comma between decimals, the text is `min(1,5 ,x)`. -/
theorem parse_render_smallerTree :
    parse ⟨'.'⟩ .standard "min(1.5, x)" = .ok smallerTree ∧
      NumberFormat.Standalone ⟨','⟩ ∧
      parse ⟨','⟩ .standard (smallerTree.render ⟨0, ⟨','⟩⟩) = .ok smallerTree.asWritten := by
  have hstandalone : NumberFormat.Standalone ⟨','⟩ := ⟨rfl, by decide, by decide, by decide⟩
  exact ⟨parse_smallerTree, hstandalone,
    (parse_render parse_smallerTree ⟨0, ⟨','⟩⟩ (.inr hstandalone)).1⟩

end Formula
