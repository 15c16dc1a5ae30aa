/-
What the limits do.  A parser with smaller limits is refused by one of them or goes on as
the larger ones let it, and limits that leave room for all tokens are never hit.  Between
them the height of a tree decides: a tree is parsed exactly if it is no higher than allowed.
-/
import Formula.Proofs.Agreement
import Formula.Proofs.Blame
import Formula.Proofs.Extent
import Formula.Proofs.Parsing

namespace Formula

/-- A fault of depth or height. -/
def ParseFault.IsLimit : ParseFault → Prop
  | tooDeep _ => True
  | _ => False

/-- A limit was hit. -/
def HitsLimit (outcome : Except ParseError Expr) : Prop :=
  ∃ depth position, outcome = .error ⟨.tooDeep depth, position⟩

theorem agreesUnless_isLimit_iff {first second : Except ParseError Expr} :
    AgreesUnless ParseFault.IsLimit first second ↔ HitsLimit first ∨ first = second := by
  constructor
  · rintro (⟨⟨fault, position⟩, rfl, hfault⟩ | heq)
    · cases fault with
      | tooDeep depth => exact .inl ⟨depth, position, rfl⟩
      | _ => exact hfault.elim
    · exact .inr heq
  · rintro (⟨depth, position, rfl⟩ | heq)
    · exact .of_excused trivial
    · exact .inr heq

/-- A fault that is no limit. -/
def NoLimit (error : ParseError) : Prop := ¬ error.fault.IsLimit

theorem not_hitsLimit_of_blames {outcome : Except ParseError Expr} (h : Blames NoLimit outcome) :
    ¬ HitsLimit outcome := by
  rintro ⟨depth, position, rfl⟩
  exact h _ rfl trivial

/-! More room. -/

namespace Resolution

theorem assembleAt_agrees (resolution : Resolution) {room more : Nat} (hle : room ≤ more)
    (level index : Nat) (slots : Slots) :
    AgreesUnless ParseFault.IsLimit (resolution.assembleAt room level index slots)
      (resolution.assembleAt more level index slots) := by
  induction room, level, index, slots using assembly_induction generalizing more with
  | missing room level index slots htake =>
      rw [assembleAt_none htake, assembleAt_none htake]
      exact .refl _
  | leaf room level index slots placed taken leaf htake htree =>
      rw [assembleAt_leaf htake htree, assembleAt_leaf htake htree]
      by_cases hroom : leaf.height ≤ room
      · rw [if_pos hroom, if_pos (Nat.le_trans hroom hle)]
        exact .refl _
      · rw [if_neg hroom]
        exact .of_excused trivial
  | full level index slots placed taken htake htree =>
      rw [assembleAt_zero htake htree]
      exact .of_excused trivial
  | operator room level index slots placed taken htake htree ih =>
      obtain ⟨more, rfl⟩ : ∃ below, more = below + 1 := ⟨more - 1, by omega⟩
      have hbelow : room ≤ more := Nat.le_of_succ_le_succ hle
      rw [assembleAt_succ htake htree, assembleAt_succ htake htree]
      cases resolution.node? index placed.token with
      | none => exact .refl _
      | some node =>
          cases node with
          | unary op operand =>
              apply (ih _ _ _ hbelow).bind
              intro found
              exact .refl _
          | binary op left right =>
              apply (ih _ _ _ hbelow).bind
              intro found
              apply (ih _ _ _ hbelow).bind
              intro next
              exact .refl _

theorem assemble_agrees (resolution : Resolution) {maxHeight more : Nat} (hle : maxHeight ≤ more)
    (tokens : List Placed) :
    AgreesUnless ParseFault.IsLimit (resolution.assemble maxHeight tokens)
      (resolution.assemble more tokens) := by
  apply (resolution.assembleAt_agrees hle _ _ _).bind
  intro found
  exact .refl _

end Resolution

namespace Settings

variable {settings : Settings} {maxDepth maxHeight : Nat}

theorem arrange_agrees (hheight : settings.maxHeight ≤ maxHeight) (tokens : List Placed) :
    AgreesUnless ParseFault.IsLimit (settings.arrange tokens)
      ({ settings with maxDepth, maxHeight }.arrange tokens) := by
  apply (AgreesUnless.refl _).bind
  intro resolution
  exact resolution.assemble_agrees hheight _

/-- With larger limits the parser does the same, as far as the smaller ones let it. -/
theorem parseWithin_agrees {room more : Nat} (hroom : room ≤ more)
    (hheight : settings.maxHeight ≤ maxHeight) (depth : Nat) (tokens : List Placed) :
    AgreesUnless ParseFault.IsLimit (settings.parseWithin room depth tokens)
      ({ settings with maxDepth, maxHeight }.parseWithin more depth tokens) := by
  induction room generalizing more depth tokens with
  | zero =>
      cases tokens with
      | nil =>
          rw [parseWithin_nil, parseWithin_nil]
          exact .refl _
      | cons first rest => exact .of_excused trivial
  | succ room ih =>
      cases tokens with
      | nil =>
          rw [parseWithin_nil, parseWithin_nil]
          exact .refl _
      | cons first rest =>
          obtain ⟨more, rfl⟩ : ∃ below, more = below + 1 := ⟨more - 1, by omega⟩
          have hinner := ih (Nat.le_of_succ_le_succ hroom) (depth + 1)
          have hcall : ∀ name position arguments, AgreesUnless ParseFault.IsLimit
              (bindCall settings name position arguments)
              (bindCall { settings with maxDepth, maxHeight } name position arguments) :=
            fun name position arguments => .refl _
          rw [parseWithin_cons, parseWithin_cons]
          apply (AgreesUnless.collapseCalls hinner hcall (first :: rest)).bind
          intro short
          apply (AgreesUnless.collapseGroups hinner short).bind
          intro flat
          exact arrange_agrees hheight flat

theorem parseTokens_agrees (settings : Settings) (hdepth : settings.maxDepth ≤ maxDepth)
    (hheight : settings.maxHeight ≤ maxHeight) (tokens : List Placed) :
    AgreesUnless ParseFault.IsLimit (settings.parseTokens tokens)
      ({ settings with maxDepth, maxHeight }.parseTokens tokens) :=
  parseWithin_agrees (Nat.succ_le_succ hdepth) hheight 0 tokens

/-! Room for all tokens. -/

theorem arrange_blames (tokens : List Placed) (h : extent tokens ≤ settings.maxHeight) :
    Blames NoLimit (settings.arrange tokens) := by
  have hresolve : Blames NoLimit (resolve (settings.starred tokens)) :=
    .resolve ⟨fun _ _ _ => id, fun _ _ _ _ _ _ _ => id⟩ (fun _ _ _ _ _ => id)
  apply hresolve.bind
  intro resolution hok
  obtain ⟨located, hresolves, hrow⟩ := exists_resolves hok
  have hderives : Derives settings (.formula located.arrangement.expr) tokens :=
    .formula hrow.derives (Arrangement.layered_zero_iff.2 hresolves.ordered)
  have hlevels : located.expr.levels ≤ extent tokens := by
    rw [← located.expr_arrangement]
    exact hderives.extent_le
  have hassemble := Resolution.assemble_mono hresolves.assemble (Nat.le_trans hlevels h)
  exact hassemble ▸ Blames.ok _

/-- A limit is not hit where there is a level of depth for every token, and the height for
what all tokens add. -/
theorem parseWithin_blames {room depth : Nat} {tokens : List Placed}
    (hroom : tokens.length < room) (hheight : extent tokens ≤ settings.maxHeight) :
    Blames NoLimit (settings.parseWithin room depth tokens) := by
  induction room generalizing depth tokens with
  | zero => exact absurd hroom (Nat.not_lt_zero _)
  | succ room ih =>
      have hinner : ∀ segment, segment.length ≤ tokens.length → extent segment ≤ extent tokens →
          ∀ inner, inner ≠ [] → Inside inner segment →
            Blames NoLimit (settings.parseWithin room (depth + 1) inner) := by
        intro segment hlength hextent inner _ hinside
        have hshorter := hinside.2
        have hless := extent_le_of_segment hinside.1
        exact ih (by omega) (by omega)
      have hparsed : ∀ inner tree, settings.parseWithin room (depth + 1) inner = .ok tree →
          Derives settings (.formula tree) inner :=
        fun inner tree hok => (derives_of_parseWithin hok).1
      cases tokens with
      | nil =>
          rw [parseWithin_nil]
          exact .error id
      | cons first rest =>
          rw [parseWithin_cons]
          have hcalls : CallFaults NoLimit (settings.parseWithin room (depth + 1)) settings
              (first :: rest) :=
            ⟨hinner _ (Nat.le_refl _) (Nat.le_refl _), fun _ _ _ => id, fun _ _ _ _ => id,
              fun _ _ _ _ _ _ => id⟩
          apply (Blames.collapseCalls hcalls).bind
          intro short hshort
          have hcollapse := collapseCalls_eq_ok_iff.1 hshort
          obtain ⟨hextent, hlength⟩ := (hcollapse.collapsed hparsed).extent_le
          have hgroups : GroupFaults NoLimit (settings.parseWithin room (depth + 1)) short :=
            ⟨hinner short hlength hextent, fun _ _ _ => id, fun _ _ _ => id, fun _ _ _ => id⟩
          apply (Blames.collapseGroups hgroups).bind
          intro flat hflat
          have hcollapse := collapseGroups_eq_ok_iff.1 hflat
          obtain ⟨hless, _⟩ := (hcollapse.collapsed hparsed).extent_le
          exact arrange_blames flat (by omega)

/-! Less height. -/

/-- With less height the parser still finds the trees that are no higher. -/
theorem parseWithin_lower (settings : Settings) {room depth : Nat} {tokens : List Placed}
    {tree : Expr} (h : settings.parseWithin room depth tokens = .ok tree)
    (hlevels : tree.levels ≤ maxHeight) :
    { settings with maxDepth, maxHeight }.parseWithin room depth tokens = .ok tree := by
  induction room generalizing depth tokens tree with
  | zero => exact absurd h parseWithin_zero_ne_ok
  | succ room ih =>
      have hparsed : ∀ inner tree, settings.parseWithin room (depth + 1) inner = .ok tree →
          Derives settings (.formula tree) inner :=
        fun inner tree hok => (derives_of_parseWithin hok).1
      obtain ⟨hne, short, flat, hcalls, hgroups, harrange⟩ := parseWithin_succ_eq_ok_iff.1 h
      obtain ⟨hflat, _⟩ := (arrange_eq_ok_iff hgroups.openFree).1 harrange
      have hshort : Derives settings (.formula tree) short :=
        hflat.of_collapsed (hgroups.collapsed hparsed) fun _ => hcalls.callFree
      refine parseWithin_succ_eq_ok_iff.2 ⟨hne, short, flat, ?_, ?_, ?_⟩
      · have hbinds : ∀ name arity function, settings.function? name arity = some function →
            { settings with maxDepth, maxHeight }.function? name arity = some function :=
          fun name arity function => id
        apply hcalls.imp hbinds
        intro function arguments position hmem argument hargument inner hok
        have hcovers : (function.call arguments).levels ≤ tree.levels := hshort.covers hmem rfl
        have hargumentLevels := Expr.levels_le_maxLevels hargument
        apply ih hok
        rw [Function.call, Expr.levels] at hcovers
        omega
      · apply hgroups.imp
        intro inside position hmem inner hok
        have hcovers : (Expr.block inside).levels ≤ tree.levels := hflat.covers hmem rfl
        apply ih hok
        rw [Expr.levels] at hcovers
        omega
      · exact (arrange_eq_ok_iff hgroups.openFree).2 ⟨hflat.limited maxDepth maxHeight, hlevels⟩

/-- The settings with limits that leave room for all tokens. -/
def unlimited (settings : Settings) (tokens : List Placed) : Settings :=
  { settings with maxDepth := tokens.length, maxHeight := extent tokens }

theorem not_hitsLimit_unlimited (settings : Settings) (tokens : List Placed) :
    ¬ HitsLimit ((settings.unlimited tokens).parseTokens tokens) :=
  not_hitsLimit_of_blames (parseWithin_blames (Nat.lt_succ_self _) (Nat.le_refl _))

/-- Larger limits than the ones that leave room for all tokens change nothing. -/
theorem parseTokens_of_le {tokens : List Placed} (hdepth : tokens.length ≤ maxDepth)
    (hheight : extent tokens ≤ maxHeight) :
    { settings with maxDepth, maxHeight }.parseTokens tokens =
      (settings.unlimited tokens).parseTokens tokens := by
  have hagrees : AgreesUnless ParseFault.IsLimit ((settings.unlimited tokens).parseTokens tokens)
      ({ settings with maxDepth, maxHeight }.parseTokens tokens) :=
    (settings.unlimited tokens).parseTokens_agrees hdepth hheight tokens
  rcases agreesUnless_isLimit_iff.1 hagrees with hlimit | heq
  · exact absurd hlimit (settings.not_hitsLimit_unlimited tokens)
  · exact heq.symm

/-- A limit is hit, or the result is that of settings without limits. -/
theorem hitsLimit_or_eq (settings : Settings) (tokens : List Placed) :
    HitsLimit (settings.parseTokens tokens) ∨
      settings.parseTokens tokens = (settings.unlimited tokens).parseTokens tokens := by
  rw [← parseTokens_of_le (Nat.le_max_left tokens.length settings.maxDepth)
    (Nat.le_max_left (extent tokens) settings.maxHeight)]
  exact agreesUnless_isLimit_iff.1
    (settings.parseTokens_agrees (Nat.le_max_right _ _) (Nat.le_max_right _ _) tokens)

/-- Scanned tokens that do not hit a limit are parsed to the tree that the grammar gives them,
if it gives them one. -/
theorem parseTokens_of_not_hitsLimit {tokens : List Placed} {tree : Expr}
    (hscanned : ∀ placed ∈ tokens, placed.token.isScanned = true)
    (hlimit : ¬ HitsLimit (settings.parseTokens tokens)) :
    settings.parseTokens tokens = .ok tree ↔ Derives settings (.formula tree) tokens := by
  constructor
  · exact fun hok => (derives_of_parseWithin hok).1
  · intro hderives
    let depth := max tokens.length tree.countedDepth
    let height := max (extent tokens) tree.levels
    have hmore : { settings with maxDepth := depth, maxHeight := height }.parseTokens tokens =
        .ok tree := (parseTokens_of_scanned hscanned).2
      ⟨hderives.limited depth height, Nat.le_max_right _ _, Nat.le_max_right _ _⟩
    rw [(settings.hitsLimit_or_eq tokens).resolve_left hlimit, ← hmore]
    exact (parseTokens_of_le (Nat.le_max_left _ _) (Nat.le_max_left _ _)).symm

end Settings

theorem not_hitsLimit_ok (tree : Expr) : ¬ HitsLimit (.ok tree) := by
  rintro ⟨depth, position, heq⟩
  cases heq

/-- Limits reject and do nothing else.  From some limits on they do not even reject; below
those a limit is hit, or the result is the same.  Where the depth does not matter the height
alone decides: a tree is parsed if it is no higher than allowed, and otherwise a limit is
hit. -/
theorem parseTokens_within_limits (settings : Settings) (tokens : List Placed) :
    (∀ maxDepth maxHeight, tokens.length ≤ maxDepth → extent tokens ≤ maxHeight →
      { settings with maxDepth, maxHeight }.parseTokens tokens =
        (settings.unlimited tokens).parseTokens tokens) ∧
    (HitsLimit (settings.parseTokens tokens) ∨
      settings.parseTokens tokens = (settings.unlimited tokens).parseTokens tokens) ∧
    (∀ tree, (settings.unlimited tokens).parseTokens tokens = .ok tree →
      ∀ maxDepth maxHeight, tokens.length ≤ maxDepth →
        (tree.height ≤ maxHeight →
          { settings with maxDepth, maxHeight }.parseTokens tokens = .ok tree) ∧
        (¬ tree.height ≤ maxHeight →
          HitsLimit ({ settings with maxDepth, maxHeight }.parseTokens tokens))) ∧
    ∀ tree, settings.parseTokens tokens = .ok tree → tree.height ≤ settings.maxHeight := by
  refine ⟨fun _ _ => Settings.parseTokens_of_le, settings.hitsLimit_or_eq tokens, ?_, ?_⟩
  · intro tree htree maxDepth maxHeight hdepth
    rw [Expr.height_eq_levels]
    constructor
    · intro hlevels
      have hdeep : { settings with maxDepth, maxHeight := extent tokens }.parseTokens tokens =
          .ok tree := (Settings.parseTokens_of_le hdepth (Nat.le_refl _)).trans htree
      exact { settings with maxDepth, maxHeight := extent tokens }.parseWithin_lower hdeep hlevels
    · intro hlevels
      have hlimits : { settings with maxDepth, maxHeight }.unlimited tokens =
          settings.unlimited tokens := rfl
      rcases { settings with maxDepth, maxHeight }.hitsLimit_or_eq tokens with hlimit | heq
      · exact hlimit
      · rw [hlimits, htree] at heq
        exact absurd (Settings.derives_of_parseWithin heq).2 hlevels
  · intro tree htree
    rw [Expr.height_eq_levels]
    exact (Settings.derives_of_parseWithin htree).2

/-- The tokens of `(1)`. -/
def oneInParentheses : List Placed := [⟨.openParen, 0⟩, ⟨.number 1, 1⟩, ⟨.closeParen, 2⟩]

theorem parseTokens_oneInParentheses :
    (Settings.standard.unlimited oneInParentheses).parseTokens oneInParentheses =
      .ok (.block (.number 1)) := by
  have hscanned : ∀ placed ∈ oneInParentheses, placed.token.isScanned = true := by
    simp [oneInParentheses, Token.isScanned]
  have hgroup : Derives (Settings.standard.unlimited oneInParentheses)
      (.value (.block (.number 1))) oneInParentheses := .group (.of_value (.token rfl))
  exact (Settings.parseTokens_of_scanned hscanned).2 ⟨.of_value hgroup, by decide, by decide⟩

/-- A group around a number has two levels. -/
theorem parseTokens_within_limits_oneInParentheses :
    { Settings.standard with maxDepth := 3, maxHeight := 2 }.parseTokens oneInParentheses =
        .ok (.block (.number 1)) ∧
      HitsLimit
        ({ Settings.standard with maxDepth := 3, maxHeight := 1 }.parseTokens oneInParentheses) := by
  have hheight : (Expr.block (.number 1)).height = 2 := Expr.height_eq_levels _
  obtain ⟨_, _, hdecides, _⟩ := parseTokens_within_limits Settings.standard oneInParentheses
  have hdecides := hdecides _ parseTokens_oneInParentheses
  constructor
  · exact (hdecides 3 2 (by decide)).1 (by rw [hheight])
  · exact (hdecides 3 1 (by decide)).2 (by rw [hheight]; decide)

end Formula
