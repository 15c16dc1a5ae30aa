/-
The text of a tree is scanned as the tokens of the tree.  Names and numbers end where
the printer goes on, since neither a space nor a mark continues them; only a comma that
separates decimals would, and it stands behind a space then.
-/
import Formula.Expr.Printer
import Formula.Proofs.Number.Numerals
import Formula.Proofs.Number.Pattern
import Formula.Proofs.Printing.Tokens
import Formula.Proofs.Scanning.Streaming

namespace Formula

/-- A letter, then letters and decimal digits. -/
def Text.isName : List Char → Bool
  | [] => false
  | first :: rest => isLetter first && rest.all isWord

namespace NumberFormat

variable {format : NumberFormat}

/-- Whether the separator of the format is read as one. -/
def reads (format : NumberFormat) : Bool :=
  format.separates format.decimalSeparator || format.decimalSeparator = ','

/-- Wherever a text stands, it is scanned as these tokens. -/
def Yields (format : NumberFormat) (text : List Char) (tokens : List Token) : Prop :=
  ∀ position, ∃ placed, format.munch position text = some placed ∧
    placed.map Placed.token = tokens

/-- What a text is followed by does not go on with it. -/
def Parts (format : NumberFormat) (text rest : List Char) : Prop :=
  ∀ next ∈ rest.head?, Text.isWord next = false ∧
    (text.getLast?.any Char.isDigit = true → format.continues next = false)

theorem yields_nil : format.Yields [] [] := fun position => ⟨[], munch_nil position, rfl⟩

theorem Yields.blank {c : Char} {rest : List Char} {tokens : List Token}
    (h : format.Yields rest tokens) (hblank : Text.isBlank c = true) :
    format.Yields (c :: rest) tokens := by
  intro position
  rw [munch_blank hblank]
  exact h (position + 1)

theorem Yields.gap {rest : List Char} {tokens : List Token} (h : format.Yields rest tokens)
    (layout : Layout) : format.Yields (layout.gap ++ rest) tokens := by
  rw [Layout.gap]
  induction layout.spacing with
  | zero => exact h
  | succ spacing ih =>
      rw [List.replicate_succ, List.cons_append]
      exact ih.blank (by decide)

theorem Yields.mark {c : Char} {token : Token} {rest : List Char} {tokens : List Token}
    (h : format.Yields rest tokens) (hmark : Token.mark? c = some token) :
    format.Yields (c :: rest) (token :: tokens) := by
  intro position
  obtain ⟨placed, hmunch, rfl⟩ := h (position + 1)
  refine ⟨⟨token, position⟩ :: placed, ?_, rfl⟩
  rw [munch_mark hmark, hmunch]
  rfl

theorem Yields.name {name rest : List Char} {tokens : List Token} (h : format.Yields rest tokens)
    (hname : Text.isName name = true) (hparts : format.Parts name rest) :
    format.Yields (name ++ rest) (.identifier (String.ofList name) :: tokens) := by
  intro position
  cases name with
  | nil => cases hname
  | cons first run =>
      obtain ⟨hletter, hrun⟩ := Bool.and_eq_true_iff.1 hname
      have hstops : ∀ next ∈ rest.head?, Text.isWord next = false :=
        fun next hnext => (hparts next hnext).1
      rw [List.cons_append, munch_letter hletter, takeWhile_run (List.all_eq_true.1 hrun) hstops,
        dropWhile_run (List.all_eq_true.1 hrun) hstops]
      obtain ⟨placed, hmunch, rfl⟩ := h (position + 1 + run.length)
      rw [hmunch]
      exact ⟨_, rfl, rfl⟩

/-- Numbers that are read as they are written: a fraction stands behind a separator
that is read as one. -/
def Keeps (format : NumberFormat) (value : Float) : Prop :=
  ∃ code ≤ Binary64.infinity, value = Binary64.ofCode false code ∧
    (code < Binary64.infinity →
      (Numeral.shortest code).fraction = [] ∨ format.reads = true)

theorem write_infinity :
    format.write (Binary64.ofCode false Binary64.infinity) = ['i', 'n', 'f'] := by
  have hcode := Binary64.code_ofCode (Nat.le_refl Binary64.infinity)
  have hsign := Binary64.isNegative_ofCode (Nat.le_refl Binary64.infinity)
  simp [write, Binary64.write, Binary64.isNotANumber, Binary64.isFinite, hcode, hsign]

theorem write_finite {code : Nat} (h : code < Binary64.infinity) :
    format.write (Binary64.ofCode false code) =
      (Numeral.shortest code).write format.decimalSeparator := by
  have hcode := Binary64.code_ofCode (Nat.le_of_lt h)
  have hsign := Binary64.isNegative_ofCode (Nat.le_of_lt h)
  have hnumber : ¬ Binary64.infinity < code := Nat.not_lt.2 (Nat.le_of_lt h)
  simp [write, Binary64.write, Binary64.isNotANumber, Binary64.isFinite, hcode, hsign, h, hnumber]

theorem continues_separator (h : format.reads = true) :
    format.continues format.decimalSeparator = true ∧ format.decimalSeparator.isDigit = false := by
  rcases Bool.or_eq_true_iff.1 h with hseparates | hcomma
  · exact ⟨by simp [continues, hseparates], (eq_of_separates hseparates).2.2.1⟩
  · have hcomma : format.decimalSeparator = ',' := of_decide_eq_true hcomma
    exact ⟨by simp [continues, hcomma], by rw [hcomma]; rfl⟩

theorem getLast?_of_digits {digits : List Char} (hdigits : ∀ c ∈ digits, c.isDigit = true)
    (hne : digits ≠ []) (front : List Char) :
    (front ++ digits).getLast?.any Char.isDigit = true := by
  rw [List.getLast?_append_of_ne_nil _ hne, List.getLast?_eq_some_getLast hne]
  exact hdigits _ (List.getLast_mem hne)

end NumberFormat

namespace Numeral.WellFormed

variable {numeral : Numeral} {separator : Char}

theorem write_ne_nil (h : numeral.WellFormed) (separator : Char) :
    numeral.write separator ≠ [] := by
  rw [write]
  split
  · exact h.whole_ne_nil
  · exact List.append_ne_nil_of_left_ne_nil h.whole_ne_nil _

theorem getLast?_write (h : numeral.WellFormed) (separator : Char) :
    (numeral.write separator).getLast?.any Char.isDigit = true := by
  rw [write]
  split
  · exact NumberFormat.getLast?_of_digits h.whole h.whole_ne_nil []
  · rename_i hfraction
    rw [List.append_cons]
    exact NumberFormat.getLast?_of_digits h.fraction hfraction _

theorem literal?_write (h : numeral.WellFormed)
    (hseparator : numeral.fraction = [] ∨ separator.isDigit = false) :
    literal? (numeral.write separator) = some (Binary64.ofCode false numeral.code) := by
  rw [write]
  split
  · rename_i hfraction
    have heta : numeral = ⟨numeral.whole, []⟩ := by rw [← hfraction]
    rw [literal?_whole h.whole h.whole_ne_nil, ← heta]
  · rename_i hfraction
    have hseparator := hseparator.resolve_left hfraction
    rw [literal?_fraction h.whole hseparator]
    exact if_pos ⟨List.all_eq_true.2 h.fraction, fun hempty => h.whole_ne_nil hempty.1⟩

/-- A numeral is one run for the scanner. -/
theorem exists_run (h : numeral.WellFormed) {format : NumberFormat}
    (hseparator : numeral.fraction = [] ∨ format.continues format.decimalSeparator = true) :
    ∃ first run, numeral.write format.decimalSeparator = first :: run ∧ first.isDigit = true ∧
      ∀ c ∈ run, format.continues c = true := by
  have hdigits : ∀ {c : Char}, c.isDigit = true → format.continues c = true :=
    fun hdigit => by simp [NumberFormat.continues, hdigit]
  obtain ⟨first, run, hwhole⟩ := List.exists_cons_of_ne_nil h.whole_ne_nil
  have hfirst : first.isDigit = true := h.whole first (by rw [hwhole]; exact List.mem_cons_self)
  have hrun : ∀ c ∈ run, format.continues c = true := fun c hc =>
    hdigits (h.whole c (by rw [hwhole]; exact List.mem_cons_of_mem _ hc))
  rw [write, hwhole]
  split
  · exact ⟨first, run, rfl, hfirst, hrun⟩
  · rename_i hfraction
    refine ⟨first, run ++ format.decimalSeparator :: numeral.fraction, rfl, hfirst, ?_⟩
    intro c hc
    rcases List.mem_append.1 hc with hc | hc
    · exact hrun c hc
    · rcases List.mem_cons.1 hc with rfl | hc
      · exact hseparator.resolve_left hfraction
      · exact hdigits (h.fraction c hc)

end Numeral.WellFormed

namespace NumberFormat

variable {format : NumberFormat}

/-- A numeral is scanned as one number, if its separator is read. -/
theorem munch_numeral {numeral : Numeral} (h : numeral.WellFormed)
    (hseparator : numeral.fraction = [] ∨ format.reads = true) {rest : List Char}
    (hstops : ∀ next ∈ rest.head?, format.continues next = false) (position : Nat) :
    format.munch position (numeral.write format.decimalSeparator ++ rest) =
      (format.munch (position + (numeral.write format.decimalSeparator).length) rest).map
        (⟨.number (Binary64.ofCode false numeral.code), position⟩ :: ·) := by
  have hreads := hseparator.imp_right continues_separator
  have hliteral := h.literal?_write (hreads.imp_right And.right)
  obtain ⟨first, run, hwrite, hfirst, hrun⟩ := h.exists_run (hreads.imp_right And.left)
  have hstarts : format.startsNumber first = true := Bool.or_eq_true_iff.2 (.inl hfirst)
  have hlength : position + (first :: run).length = position + 1 + run.length := by
    rw [List.length_cons]
    omega
  rw [hwrite] at hliteral ⊢
  rw [List.cons_append, munch_number hstarts, takeWhile_run hrun hstops, dropWhile_run hrun hstops,
    hliteral, Option.bind_some, hlength]

theorem Yields.number {value : Float} {rest : List Char} {tokens : List Token}
    (h : format.Yields rest tokens) (hvalue : format.Keeps value)
    (hparts : format.Parts (format.write value) rest) :
    format.Yields (format.write value ++ rest) (Expr.numberToken value :: tokens) := by
  obtain ⟨code, hle, rfl, hfraction⟩ := hvalue
  rw [Expr.numberToken, Binary64.code_ofCode hle]
  rcases Nat.lt_or_eq_of_le hle with hfinite | rfl
  · rw [if_neg (Nat.ne_of_lt hfinite)]
    rw [write_finite hfinite] at hparts ⊢
    have hwell := Numeral.wellFormed_shortest code
    have hstops : ∀ next ∈ rest.head?, format.continues next = false :=
      fun next hnext => (hparts next hnext).2 (hwell.getLast?_write _)
    intro position
    obtain ⟨placed, hmunch, rfl⟩ := h (position + _)
    rw [munch_numeral hwell (hfraction hfinite) hstops, hmunch, Numeral.code_shortest hfinite]
    exact ⟨_, rfl, rfl⟩
  · rw [if_pos rfl]
    rw [write_infinity] at hparts ⊢
    exact h.name (by decide) hparts

variable {text rest : List Char}

theorem parts_nil : format.Parts text [] := fun _ hnext => by cases hnext

theorem continues_of_mark? {c : Char} {token : Token} (hmark : Token.mark? c = some token)
    (hcomma : c = ',' → format.decimalSeparator ≠ ',') : format.continues c = false := by
  have hdigit := (Token.eq_of_mark? hmark).2.2.2.1
  have hseparates : format.separates c = false := by
    rw [Bool.eq_false_iff]
    intro hseparates
    rw [(eq_of_separates hseparates).2.1] at hmark
    cases hmark
  simp only [continues, hdigit, hseparates, Bool.or_self, Bool.false_or, Bool.and_eq_false_iff,
    decide_eq_false_iff_not]
  exact not_and_or.1 fun hboth => hcomma hboth.1 hboth.2

/-- A mark parts whatever stands in front of it, unless it is read as a separator. -/
theorem parts_mark {c : Char} {token : Token} (hmark : Token.mark? c = some token)
    (hcomma : c = ',' → text.getLast?.any Char.isDigit = true → format.decimalSeparator ≠ ',') :
    format.Parts text (c :: rest) := by
  intro next hnext
  obtain rfl : c = next := Option.some.inj hnext
  refine ⟨(Token.eq_of_mark? hmark).2.2.1, fun hlast => ?_⟩
  exact continues_of_mark? hmark fun hc => hcomma hc hlast

theorem parts_space : format.Parts text (' ' :: rest) := by
  intro next hnext
  obtain rfl : ' ' = next := Option.some.inj hnext
  exact ⟨by decide, fun _ => continues_of_isBlank (by decide)⟩

theorem Parts.gap (h : format.Parts text rest) (layout : Layout) :
    format.Parts text (layout.gap ++ rest) := by
  rw [Layout.gap]
  cases layout.spacing with
  | zero => exact h
  | succ spacing => exact parts_space

theorem Parts.of_append {front : List Char} (hne : text ≠ [])
    (h : format.Parts (front ++ text) rest) : format.Parts text rest := by
  rw [Parts, List.getLast?_append_of_ne_nil _ hne] at h
  exact h

end NumberFormat

theorem UnaryOperator.mark?_symbol (op : UnaryOperator) :
    Token.mark? op.symbol = some op.token := by
  cases op <;> rfl

theorem BinaryOperator.mark?_symbol (op : BinaryOperator) :
    Token.mark? op.symbol = some op.token := by
  cases op <;> rfl

namespace Expr

/-- Trees whose names are names, and whose numbers are read as they are written. -/
inductive Legible (format : NumberFormat) : Expr → Prop
  | number {value : Float} (hvalue : format.Keeps value) : Legible format (.number value)
  | var {name : String} (hname : Text.isName name.toList = true) : Legible format (.var name)
  | call {name : String} {arguments : List Expr} {implementation : Implementation}
      (hname : Text.isName name.toList = true)
      (harguments : ∀ argument ∈ arguments, Legible format argument) :
      Legible format (.call name arguments implementation)
  | block {inner : Expr} (hinner : Legible format inner) : Legible format (.block inner)
  | unary {op : UnaryOperator} {operand : Expr} (hoperand : Legible format operand) :
      Legible format (.unary op operand)
  | binary {op : BinaryOperator} {left right : Expr} (hleft : Legible format left)
      (hright : Legible format right) : Legible format (.binary op left right)

variable {layout : Layout}

theorem Legible.text_ne_nil {format : NumberFormat} {tree : Expr} (h : tree.Legible format)
    (layout : Layout) : tree.text layout ≠ [] := by
  induction h with
  | @number value hvalue =>
      obtain ⟨code, hle, rfl, -⟩ := hvalue
      rw [text]
      rcases Nat.lt_or_eq_of_le hle with hfinite | rfl
      · rw [NumberFormat.write_finite hfinite]
        exact (Numeral.wellFormed_shortest code).write_ne_nil _
      · rw [NumberFormat.write_infinity]
        exact List.cons_ne_nil _ _
  | @var name hname =>
      intro hnil
      rw [text] at hnil
      rw [hnil] at hname
      cases hname
  | call | block | unary | binary => simp [text]

/-- Wherever the tree is written, its tokens are scanned. -/
def Scans (layout : Layout) (tree : Expr) : Prop :=
  ∀ {rest : List Char} {tokens : List Token}, layout.format.Yields rest tokens →
    layout.format.Parts (tree.text layout) rest →
      layout.format.Yields (tree.text layout ++ rest) (tree.tokens ++ tokens)

theorem yields_comma {rest : List Char} {tokens : List Token} (argument : List Char)
    (h : layout.format.Yields rest tokens) :
    layout.format.Yields (layout.comma argument ++ rest) (.comma :: tokens) ∧
      layout.format.Parts argument (layout.comma argument ++ rest) := by
  have hcomma : layout.format.Yields (',' :: (layout.gap ++ rest)) (.comma :: tokens) :=
    (h.gap layout).mark rfl
  rw [Layout.comma, List.append_assoc]
  split
  · exact ⟨hcomma.blank (by decide), NumberFormat.parts_space⟩
  · rename_i htouches
    refine ⟨hcomma, NumberFormat.parts_mark rfl fun _ hlast hformat => htouches ?_⟩
    rw [Bool.and_eq_true]
    exact ⟨beq_iff_eq.2 hformat, hlast⟩

/-- The arguments of a call, of which each is scanned as its own tokens. -/
theorem yields_arguments {trees : List Expr} (h : ∀ tree ∈ trees, Scans layout tree)
    {rest : List Char} {tokens : List Token} (hrest : layout.format.Yields rest tokens)
    (hparts : ∀ text, layout.format.Parts text rest) :
    layout.format.Yields (layout.separateArguments (texts layout trees) ++ rest)
      (separateTokens (tokenLists trees) ++ tokens) := by
  induction trees with
  | nil => exact hrest
  | cons first more ih =>
      have hfirst : Scans layout first := h first List.mem_cons_self
      cases more with
      | nil => exact hfirst hrest (hparts _)
      | cons next more =>
          have hmore := ih fun tree htree => h tree (List.mem_cons_of_mem _ htree)
          obtain ⟨hcomma, hpartsComma⟩ := yields_comma (first.text layout) hmore
          have hall := hfirst hcomma hpartsComma
          simpa [texts, tokenLists, separateTokens, Layout.separateArguments] using hall

/-- The text of a tree is scanned as the tokens of the tree. -/
theorem Legible.scans {tree : Expr} (h : tree.Legible layout.format) : Scans layout tree := by
  induction h with
  | number hvalue => exact fun hrest hparts => hrest.number hvalue hparts
  | @var name hname =>
      intro rest tokens hrest hparts
      have hyields := hrest.name hname hparts
      rw [String.ofList_toList] at hyields
      exact hyields
  | @call name arguments implementation hname harguments ih =>
      intro rest tokens hrest hparts
      have hclose : layout.format.Yields (')' :: rest) (.closeParen :: tokens) := hrest.mark rfl
      have hopen := (yields_arguments ih hclose fun text =>
        NumberFormat.parts_mark rfl fun hne => by cases hne).mark (rfl : Token.mark? '(' = _)
      have hall := hopen.name hname (NumberFormat.parts_mark rfl fun hne => by cases hne)
      rw [String.ofList_toList] at hall
      simpa [text, Expr.tokens] using hall
  | @block inner hinner ih =>
      intro rest tokens hrest hparts
      have hclose : layout.format.Yields (')' :: rest) (.closeParen :: tokens) := hrest.mark rfl
      have hall := (ih hclose (NumberFormat.parts_mark rfl fun hne => by cases hne)).mark
        (rfl : Token.mark? '(' = _)
      simpa [text, Expr.tokens] using hall
  | @unary op operand hoperand ih =>
      intro rest tokens hrest hparts
      have hlast : layout.format.Parts (operand.text layout) rest :=
        NumberFormat.Parts.of_append (hoperand.text_ne_nil layout)
          (show layout.format.Parts ([op.symbol] ++ operand.text layout) rest from hparts)
      exact (ih hrest hlast).mark op.mark?_symbol
  | @binary op left right hleft hright ihleft ihright =>
      intro rest tokens hrest hparts
      have hlast : layout.format.Parts (right.text layout) rest :=
        NumberFormat.Parts.of_append (hright.text_ne_nil layout) hparts
      have hoperator := ((ihright hrest hlast).gap layout).mark op.mark?_symbol
      have hsymbol : op.symbol ≠ ',' := by cases op <;> decide
      have hpartsGap : layout.format.Parts (left.text layout) (layout.gap ++ op.symbol ::
          (layout.gap ++ (right.text layout ++ rest))) :=
        (NumberFormat.parts_mark op.mark?_symbol fun hcomma => absurd hcomma hsymbol).gap layout
      have hall := ihleft (hoperator.gap layout) hpartsGap
      simpa [text, Expr.tokens] using hall

end Expr

end Formula
