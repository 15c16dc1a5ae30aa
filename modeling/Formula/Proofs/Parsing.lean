/-
The parser against the grammar.  What is parsed is a formula of the grammar.  The
converse is limited by depth and height, and takes two inductions on the room that
is left: one over lists whose calls have collapsed, where only parentheses go deeper,
and on top of it one over the lists that the scanner yields.
-/
import Formula.Proofs.Collapse.Calls
import Formula.Proofs.Collapse.Groups
import Formula.Proofs.Precedence.Arranging

namespace Formula

variable {settings : Settings}

/-- Tokens whose trees have a property that calls and parentheses keep, where there are
any. -/
structure Seeds (settings : Settings) (motive : Expr → Prop) (tokens : List Placed) : Prop where
  call : (∀ name arguments function, settings.Binds name arguments.length function →
    motive (.var name) → (∀ argument ∈ arguments, motive argument) →
      motive (function.call arguments)) ∨ CallFree tokens
  block : (∀ inner, motive inner → motive (.block inner)) ∨ OpenFree tokens
  value : ∀ placed ∈ tokens, ∀ tree, placed.token.tree? = some tree → motive tree

namespace Seeds

variable {motive : Expr → Prop} {tokens : List Placed}

theorem segment (h : Seeds settings motive tokens) {inner : List Placed}
    (hsegment : inner <:+: tokens) : Seeds settings motive inner where
  call := h.call.imp_right fun hfree => hfree.segment hsegment
  block := h.block.imp_right fun hopen placed hplaced => hopen placed (hsegment.subset hplaced)
  value placed hplaced := h.value placed (hsegment.subset hplaced)

theorem tail {placed : Placed} (h : Seeds settings motive (placed :: tokens)) :
    Seeds settings motive tokens := h.segment (List.suffix_cons _ _).isInfix

theorem of_append {left right : List Placed} (h : Seeds settings motive (left ++ right)) :
    Seeds settings motive left ∧ Seeds settings motive right :=
  ⟨h.segment (List.prefix_append _ _).isInfix, h.segment (List.suffix_append _ _).isInfix⟩

end Seeds

/-- A property that every step of the grammar keeps holds of the trees it builds. -/
theorem Derives.tree_induction {motive : Expr → Prop}
    (hunary : ∀ op operand, motive operand → motive (.unary op operand))
    (hbinary : ∀ op left right, motive left → motive right → motive (.binary op left right))
    {phrase : Phrase} {tokens : List Placed} (h : Derives settings phrase tokens)
    (hseeds : Seeds settings motive tokens) :
    ∀ tree ∈ phrase.gather (fun tree => [tree]), motive tree := by
  induction h with
  | @token placed tree htree =>
      exact List.forall_mem_singleton.2 (hseeds.value placed List.mem_cons_self tree htree)
  | @call name position opening closing arguments function tokens harguments hfunction ih =>
      refine List.forall_mem_singleton.2 ?_
      rcases hseeds.call with hcall | hfree
      · have hinner := hseeds.segment (segment_call _ opening closing tokens [])
        have hname : motive (.var name) := hseeds.value _ List.mem_cons_self _ rfl
        refine hcall name arguments function hfunction hname fun argument hargument => ?_
        exact ih hinner argument (List.mem_flatMap.2 ⟨argument, hargument, List.mem_cons_self⟩)
      · exact absurd ⟨rfl, rfl⟩ hfree.seam
  | @group opening closing inner tokens hinner ih =>
      refine List.forall_mem_singleton.2 ?_
      rcases hseeds.block with hblock | hopen
      · have hinside := hseeds.segment (segment_parentheses opening closing tokens [])
        exact hblock inner (ih hinside inner List.mem_cons_self)
      · cases hopen ⟨.openParen, opening⟩ List.mem_cons_self
  | bare hvalue ih => exact ih hseeds
  | @sign placed op tree tokens hop hoperand ih =>
      have hoperand : motive tree := ih hseeds.tail tree List.mem_cons_self
      exact List.forall_mem_singleton.2 (hunary op tree hoperand)
  | first hoperand ih =>
      rw [Phrase.gather_single]
      exact ih hseeds
  | operator hchain hop hoperand ihchain ihoperand =>
      rw [Phrase.gather_push]
      exact List.forall_mem_append.2 ⟨ihchain hseeds.of_append.1, ihoperand hseeds.of_append.2.tail⟩
  | juxtaposed himplicit hchain hvalue hseam ihchain ihvalue =>
      rw [Phrase.gather_push]
      exact List.forall_mem_append.2 ⟨ihchain hseeds.of_append.1, ihvalue hseeds.of_append.2⟩
  | @formula tree tokens hchain hlayered ih =>
      refine List.forall_mem_singleton.2 ?_
      refine tree.expr_induction hbinary fun operand hoperand => ih hseeds operand ?_
      exact List.mem_flatMap.2 ⟨operand, hoperand, List.mem_cons_self⟩
  | lastArgument hformula ih =>
      rw [Phrase.gather_lastArgument]
      exact ih hseeds
  | argument hformula hrest ihformula ihrest =>
      rw [Phrase.gather_argument]
      exact List.forall_mem_append.2 ⟨ihformula hseeds.of_append.1, ihrest hseeds.of_append.2.tail⟩

/-- Scanned tokens carry no trees but numbers and variables, so what these have and all else keeps
is had by what is derived. -/
theorem Derives.scanned_induction {settings : Settings} {motive : Expr → Prop}
    {tokens : List Placed} {tree : Expr} (h : Derives settings (.formula tree) tokens)
    (hscanned : ∀ placed ∈ tokens, placed.token.isScanned = true)
    (hnumber : ∀ placed ∈ tokens, ∀ value, placed.token = .number value → motive (.number value))
    (hvar : ∀ placed ∈ tokens, ∀ name, placed.token = .identifier name → motive (.var name))
    (hcall : ∀ name arguments function,
      settings.Binds name arguments.length function → motive (.var name) →
        (∀ argument ∈ arguments, motive argument) → motive (function.call arguments))
    (hblock : ∀ inner, motive inner → motive (.block inner))
    (hunary : ∀ op operand, motive operand → motive (.unary op operand))
    (hbinary : ∀ op left right, motive left → motive right → motive (.binary op left right)) :
    motive tree := by
  refine h.tree_induction hunary hbinary ⟨.inl hcall, .inl hblock, ?_⟩ tree List.mem_cons_self
  intro placed hplaced value hvalue
  have htoken := hscanned placed hplaced
  have hnumber := hnumber placed hplaced
  have hvar := hvar placed hplaced
  cases heq : placed.token with
  | number read =>
      rw [heq] at hvalue
      obtain rfl : Expr.number read = value := Option.some.inj hvalue
      exact hnumber read heq
  | identifier name =>
      rw [heq] at hvalue
      obtain rfl : Expr.var name = value := Option.some.inj hvalue
      exact hvar name heq
  | group | call =>
      rw [heq] at htoken
      cases htoken
  | _ =>
      rw [heq] at hvalue
      cases hvalue

namespace Settings

theorem parseWithin_nil (settings : Settings) (room depth : Nat) :
    settings.parseWithin room depth [] = .error ⟨.emptyExpression, 0⟩ := by
  rw [parseWithin]
  rfl

theorem parseWithin_cons (settings : Settings) (room depth : Nat) (first : Placed)
    (rest : List Placed) :
    settings.parseWithin (room + 1) depth (first :: rest) =
      (collapseCalls (settings.parseWithin room (depth + 1)) settings (first :: rest) >>=
        fun short => collapseGroups (settings.parseWithin room (depth + 1)) short >>=
          settings.arrange) := rfl

theorem parseWithin_zero_ne_ok {depth : Nat} {tokens : List Placed} {tree : Expr} :
    settings.parseWithin 0 depth tokens ≠ .ok tree := by
  cases tokens with
  | nil => exact fun h => by cases h
  | cons first rest => exact fun h => by cases h

theorem parseWithin_succ_eq_ok_iff {room depth : Nat} {tokens : List Placed} {tree : Expr} :
    settings.parseWithin (room + 1) depth tokens = .ok tree ↔
      tokens ≠ [] ∧ ∃ short flat,
        CallsCollapse (settings.parseWithin room (depth + 1)) settings tokens short ∧
        GroupsCollapse (settings.parseWithin room (depth + 1)) short flat ∧
        settings.arrange flat = .ok tree := by
  cases tokens with
  | nil =>
      constructor
      · intro h
        cases h
      · rintro ⟨hne, _⟩
        exact absurd rfl hne
  | cons first rest =>
      simp only [parseWithin_cons, bind_eq_ok_iff, collapseCalls_eq_ok_iff,
        collapseGroups_eq_ok_iff]
      constructor
      · rintro ⟨short, hcalls, flat, hgroups, harrange⟩
        exact ⟨List.cons_ne_nil _ _, short, flat, hcalls, hgroups, harrange⟩
      · rintro ⟨_, short, flat, hcalls, hgroups, harrange⟩
        exact ⟨short, hcalls, flat, hgroups, harrange⟩

/-- What is parsed is a formula, and not too high. -/
theorem derives_of_parseWithin {room depth : Nat} {tokens : List Placed} {tree : Expr}
    (h : settings.parseWithin room depth tokens = .ok tree) :
    Derives settings (.formula tree) tokens ∧ tree.levels ≤ settings.maxHeight := by
  induction room generalizing depth tokens tree with
  | zero => exact absurd h parseWithin_zero_ne_ok
  | succ room ih =>
      obtain ⟨_, short, flat, hcalls, hgroups, harrange⟩ := parseWithin_succ_eq_ok_iff.1 h
      obtain ⟨hflat, hlevels⟩ := (arrange_eq_ok_iff hgroups.openFree).1 harrange
      have hshort : Derives settings (.formula tree) short :=
        hflat.of_collapsed (hgroups.collapsed fun _ _ hinner => (ih hinner).1)
          fun _ => hcalls.callFree
      refine ⟨hshort.of_collapsed (hcalls.collapsed fun _ _ hinner => (ih hinner).1) ?_, hlevels⟩
      exact fun hopens => by cases hopens

/-- Parsing tokens whose calls have collapsed: only parentheses take room. -/
theorem parseWithin_of_callFree {room depth : Nat} {tokens : List Placed} {tree : Expr}
    (hfree : CallFree tokens)
    (hvalues : ∀ placed ∈ tokens, ∀ value, placed.token.tree? = some value →
      value.groupDepth = 0) :
    settings.parseWithin room depth tokens = .ok tree ↔
      Derives settings (.formula tree) tokens ∧ tree.groupDepth < room ∧
        tree.levels ≤ settings.maxHeight := by
  induction room generalizing depth tokens tree with
  | zero => simp [parseWithin_zero_ne_ok]
  | succ room ih =>
      constructor
      · intro h
        obtain ⟨hderives, hlevels⟩ := derives_of_parseWithin h
        refine ⟨hderives, ?_, hlevels⟩
        obtain ⟨_, short, flat, hcalls, hgroups, harrange⟩ := parseWithin_succ_eq_ok_iff.1 h
        obtain rfl := hfree.callsCollapse_iff.1 hcalls
        obtain ⟨hflat, _⟩ := (arrange_eq_ok_iff hgroups.openFree).1 harrange
        have hseeds : Seeds settings (fun tree => tree.groupDepth ≤ room) flat := by
          refine ⟨.inr hgroups.openFree.callFree, .inr hgroups.openFree, ?_⟩
          intro placed hplaced value hvalue
          rcases hgroups.mem hplaced with hkept | ⟨inner, found, htoken, hinner, hok⟩
          · exact le_of_eq_of_le (hvalues placed hkept value hvalue) (Nat.zero_le room)
          · rw [htoken] at hvalue
            obtain rfl : Expr.block found = value := Option.some.inj hvalue
            exact ((ih (hfree.segment hinner) fun other hother =>
              hvalues other (hinner.subset hother)).1 hok).2.1
        exact Nat.lt_succ_of_le (hflat.tree_induction (fun _ _ h => h)
          (fun _ _ _ hleft hright => Nat.max_le.2 ⟨hleft, hright⟩) hseeds tree List.mem_cons_self)
      · rintro ⟨hderives, hdepth, hlevels⟩
        have hgroupDepth := Expr.groupDepth_le_iff.1 (Nat.le_of_lt_succ hdepth)
        have hparse : Parses (settings.parseWithin room (depth + 1)) settings tree.groups
            tokens := by
          intro inner hinner segment hsegment hformula
          have hlt := Expr.levels_lt_of_mem_groups hinner
          exact (ih (hfree.segment hsegment) fun other hother =>
            hvalues other (hsegment.subset hother)).2
              ⟨hformula, hgroupDepth inner hinner, by omega⟩
        obtain ⟨flat, hcollapse, hflat⟩ := hderives.groupsCollapseTo hfree hparse
        have hgroups := hcollapse.collapse [] [] .nil
        rw [List.append_nil, List.append_nil] at hgroups
        exact parseWithin_succ_eq_ok_iff.2 ⟨hderives.ne_nil, tokens, flat,
          hfree.callsCollapse_iff.2 rfl, hgroups,
          (arrange_eq_ok_iff hcollapse.openFree).2 ⟨hflat, hlevels⟩⟩

/-- Tokens are left when calls and groups have collapsed. -/
theorem ne_nil_of_collapses {parse : InnerParser} {tokens short flat : List Placed}
    (hne : tokens ≠ []) (hcalls : CallsCollapse parse settings tokens short)
    (hgroups : GroupsCollapse parse short flat) : flat ≠ [] :=
  fun hflat => hne (hcalls.eq_nil_iff.2 (hgroups.eq_nil_iff.2 hflat))

/-- Once calls have collapsed, parsing goes on as if they had been collapsed before. -/
theorem parseWithin_of_callsCollapse {room depth : Nat} {tokens short : List Placed}
    (hne : tokens ≠ [])
    (hcalls : CallsCollapse (settings.parseWithin room (depth + 1)) settings tokens short)
    {tree : Expr} :
    settings.parseWithin (room + 1) depth tokens = .ok tree ↔
      settings.parseWithin (room + 1) depth short = .ok tree := by
  have hshort : short ≠ [] := fun hnil => hne (hcalls.eq_nil_iff.2 hnil)
  have hcollapse := collapseCalls_eq_ok_iff.2 hcalls
  rw [parseWithin_succ_eq_ok_iff, parseWithin_succ_eq_ok_iff]
  constructor
  · rintro ⟨_, other, flat, hother, hgroups, harrange⟩
    obtain rfl := Except.ok.inj (hcollapse.symm.trans (collapseCalls_eq_ok_iff.2 hother))
    exact ⟨hshort, short, flat, hcalls.callFree.callsCollapse_iff.2 rfl, hgroups, harrange⟩
  · rintro ⟨_, same, flat, hsame, hgroups, harrange⟩
    obtain rfl := hcalls.callFree.callsCollapse_iff.1 hsame
    exact ⟨hne, same, flat, hcalls, hgroups, harrange⟩

section Scanned

variable {parse : InnerParser} {tokens short : List Placed}
  (hscanned : ∀ placed ∈ tokens, placed.token.isScanned = true)
  (hcalls : CallsCollapse parse settings tokens short)

include hscanned hcalls

theorem groupDepth_of_callsCollapse :
    ∀ placed ∈ short, ∀ value, placed.token.tree? = some value → value.groupDepth = 0 := by
  intro placed hplaced value hvalue
  rcases hcalls.origin hplaced with hkept | ⟨function, arguments, htoken, _⟩
  · exact Token.groupDepth_of_isScanned hvalue (hscanned placed hkept)
  · rw [htoken] at hvalue
    obtain rfl : function.call arguments = value := Option.some.inj hvalue
    rfl

theorem callDepth_of_callsCollapse {bound : Nat} (hparse : ∀ inner argument, inner <:+: tokens →
      parse inner = .ok argument → argument.countedDepth < bound) :
    ∀ placed ∈ short, ∀ value, placed.token.tree? = some value → value.callDepth ≤ bound := by
  intro placed hplaced value hvalue
  rcases hcalls.origin hplaced with hkept | ⟨function, arguments, htoken, hne, hparsed⟩
  · exact le_of_eq_of_le (Token.callDepth_of_isScanned hvalue (hscanned placed hkept))
      (Nat.zero_le bound)
  · rw [htoken] at hvalue
    obtain rfl : function.call arguments = value := Option.some.inj hvalue
    refine Expr.callDepth_call_le hne fun argument hargument => ?_
    obtain ⟨inner, hinner, hok⟩ := hparsed argument hargument
    exact hparse inner argument hinner hok

end Scanned

/-- Parsing tokens as the scanner yields them: calls take room, and so do the
parentheses that are left when calls have collapsed. -/
theorem parseWithin_of_scanned {room depth : Nat} {tokens : List Placed} {tree : Expr}
    (hscanned : ∀ placed ∈ tokens, placed.token.isScanned = true) :
    settings.parseWithin room depth tokens = .ok tree ↔
      Derives settings (.formula tree) tokens ∧ tree.countedDepth < room ∧
        tree.levels ≤ settings.maxHeight := by
  induction room generalizing depth tokens tree with
  | zero => simp [parseWithin_zero_ne_ok]
  | succ room ih =>
      constructor
      · intro h
        obtain ⟨hderives, hlevels⟩ := derives_of_parseWithin h
        refine ⟨hderives, ?_, hlevels⟩
        obtain ⟨hne, short, _, hcalls, _⟩ := parseWithin_succ_eq_ok_iff.1 h
        obtain ⟨hshort, hgroupDepth, _⟩ :=
          (parseWithin_of_callFree hcalls.callFree (groupDepth_of_callsCollapse hscanned hcalls)).1
            ((parseWithin_of_callsCollapse hne hcalls).1 h)
        have hseeds : Seeds settings (fun tree => tree.callDepth ≤ room) short := by
          refine ⟨.inr hcalls.callFree, .inl fun _ h => h, ?_⟩
          refine callDepth_of_callsCollapse hscanned hcalls fun inner argument hinner hok => ?_
          exact ((ih fun other hother => hscanned other (hinner.subset hother)).1 hok).2.1
        have hcallDepth := hshort.tree_induction (fun _ _ h => h)
          (fun _ _ _ hleft hright => Nat.max_le.2 ⟨hleft, hright⟩) hseeds tree List.mem_cons_self
        exact Nat.max_lt.2 ⟨Nat.lt_succ_of_le hcallDepth, hgroupDepth⟩
      · rintro ⟨hderives, hdepth, hlevels⟩
        obtain ⟨hcallDepth, hgroupDepth⟩ := Nat.max_lt.1 hdepth
        have hparse : Parses (settings.parseWithin room (depth + 1)) settings
            tree.callArguments tokens := by
          intro argument hargument inner hinner hformula
          have hlt := Expr.levels_lt_of_mem_callArguments hargument
          have hcounted := Expr.countedDepth_lt_of_mem_callArguments hargument
          exact (ih fun other hother => hscanned other (hinner.subset hother)).2
            ⟨hformula, by omega, by omega⟩
        obtain ⟨short, hcollapse, hshort⟩ := hderives.callsCollapseTo hparse
        have hseam : ¬ (endsInName tokens ∧ startsOpen []) := fun hboth => by cases hboth.2
        have hcalls := hcollapse.collapse [] [] hseam .nil
        rw [List.append_nil, List.append_nil] at hcalls
        rw [parseWithin_of_callsCollapse hderives.ne_nil hcalls,
          parseWithin_of_callFree hcalls.callFree (groupDepth_of_callsCollapse hscanned hcalls)]
        exact ⟨hshort, hgroupDepth, hlevels⟩

theorem parseTokens_of_scanned {tokens : List Placed}
    (hscanned : ∀ placed ∈ tokens, placed.token.isScanned = true) {tree : Expr} :
    settings.parseTokens tokens = .ok tree ↔
      Derives settings (.formula tree) tokens ∧ tree.countedDepth ≤ settings.maxDepth ∧
        tree.levels ≤ settings.maxHeight := by
  have hparse : settings.parseTokens tokens =
      settings.parseWithin (settings.maxDepth + 1) 0 tokens := rfl
  rw [hparse, parseWithin_of_scanned hscanned, Nat.lt_succ_iff]

end Settings

/-- The limits of depth and height are no part of the grammar. -/
theorem Derives.limited (maxDepth maxHeight : Nat) {phrase : Phrase} {tokens : List Placed}
    (h : Derives settings phrase tokens) :
    Derives { settings with maxDepth, maxHeight } phrase tokens := by
  induction h with
  | token htree => exact .token htree
  | call harguments hfunction ih => exact .call ih hfunction
  | group hinner ih => exact .group ih
  | bare hvalue ih => exact .bare ih
  | sign hop hoperand ih => exact .sign hop ih
  | first hoperand ih => exact .first ih
  | operator hchain hop hoperand ihchain ihoperand => exact .operator ihchain hop ihoperand
  | juxtaposed himplicit hchain hvalue hseam ihchain ihvalue =>
      exact .juxtaposed himplicit ihchain ihvalue hseam
  | formula hchain hlayered ih => exact .formula ih hlayered
  | lastArgument hformula ih => exact .lastArgument ih
  | argument hformula hrest ihformula ihrest => exact .argument ihformula ihrest

/-- The grammar is unambiguous: the parser finds every tree if it is only given room. -/
theorem Derives.unique {tokens : List Placed} {tree other : Expr}
    (hscanned : ∀ placed ∈ tokens, placed.token.isScanned = true)
    (h : Derives settings (.formula tree) tokens)
    (hother : Derives settings (.formula other) tokens) : tree = other := by
  let depth := max tree.countedDepth other.countedDepth
  let height := max tree.levels other.levels
  have hparse := (Settings.parseTokens_of_scanned hscanned).2
    ⟨h.limited depth height, Nat.le_max_left _ _, Nat.le_max_left _ _⟩
  have hparseOther := (Settings.parseTokens_of_scanned hscanned).2
    ⟨hother.limited depth height, Nat.le_max_right _ _, Nat.le_max_right _ _⟩
  exact Except.ok.inj (hparse.symm.trans hparseOther)

/-- Scanned tokens are parsed exactly if they are a formula of the grammar within the
limits, and then to the one tree that the grammar gives them. -/
theorem parseTokens_eq_ok_iff_derives {tokens : List Placed}
    (hscanned : ∀ placed ∈ tokens, placed.token.isScanned = true) :
    (∀ tree, settings.parseTokens tokens = .ok tree ↔
      Derives settings (.formula tree) tokens ∧ tree.countedDepth ≤ settings.maxDepth ∧
        tree.height ≤ settings.maxHeight) ∧
    ∀ tree other, Derives settings (.formula tree) tokens →
      Derives settings (.formula other) tokens → tree = other := by
  constructor
  · intro tree
    rw [Expr.height_eq_levels]
    exact Settings.parseTokens_of_scanned hscanned
  · intro tree other h hother
    exact h.unique hscanned hother

/-- Four functions: two of them are called max and take two arguments. -/
def twoMaxima : Settings where
  functions := [Builtin.min.definition, ⟨"max", 1, .builtin .abs⟩, Builtin.max.definition,
    ⟨"max", 2, .builtin .min⟩]

/-- The tokens of `x-2+-3y^max(4,+z)^2*5/6%(7)`. -/
def everyOperator : List Placed :=
  [⟨.identifier "x", 0⟩, ⟨.minus, 1⟩, ⟨.number 2, 2⟩, ⟨.plus, 3⟩, ⟨.minus, 4⟩, ⟨.number 3, 5⟩,
    ⟨.identifier "y", 6⟩, ⟨.caret, 7⟩, ⟨.identifier "max", 8⟩, ⟨.openParen, 11⟩, ⟨.number 4, 12⟩,
    ⟨.comma, 13⟩, ⟨.plus, 14⟩, ⟨.identifier "z", 15⟩, ⟨.closeParen, 16⟩, ⟨.caret, 17⟩,
    ⟨.number 2, 18⟩, ⟨.star, 19⟩, ⟨.number 5, 20⟩, ⟨.slash, 21⟩, ⟨.number 6, 22⟩, ⟨.percent, 23⟩,
    ⟨.openParen, 24⟩, ⟨.number 7, 25⟩, ⟨.closeParen, 26⟩]

/-- The arrangement of `x-2+-3y^max(4,+z)^2*5/6%(7)`. -/
def everyOperatorArranged : Arrangement :=
  .operator .add (.operator .sub (.operand (.var "x")) (.operand (.number 2)))
    (.operator .mod
      (.operator .div
        (.operator .mul
          (.operator .mul (.operand (.unary .negate (.number 3)))
            (.operator .pow
              (.operator .pow (.operand (.var "y"))
                (.operand (.call "max" [.number 4, .unary .identity (.var "z")] (.builtin .max))))
              (.operand (.number 2))))
          (.operand (.number 5)))
        (.operand (.number 6)))
      (.operand (.block (.number 7))))

theorem derives_everyOperator :
    Derives twoMaxima (.formula everyOperatorArranged.expr) everyOperator := by
  have hnumber : ∀ value position,
      Derives twoMaxima (.value (.number value)) [⟨.number value, position⟩] :=
    fun value position => .token rfl
  have hname : ∀ name position,
      Derives twoMaxima (.value (.var name)) [⟨.identifier name, position⟩] :=
    fun name position => .token rfl
  have hargument : Derives twoMaxima (.formula (.unary .identity (.var "z")))
      [⟨.plus, 14⟩, ⟨.identifier "z", 15⟩] :=
    @Derives.formula _ (.operand (.unary .identity (.var "z"))) _
      (.first (.sign rfl (.bare (hname "z" 15)))) (.operand _)
  have hfirst : twoMaxima.Binds "max" 2 Builtin.max.definition :=
    ⟨⟨rfl, rfl⟩, [Builtin.min.definition, ⟨"max", 1, .builtin .abs⟩], [⟨"max", 2, .builtin .min⟩],
      rfl, by simp [Builtin.definition, Builtin.name]⟩
  have hcall : Derives twoMaxima
      (.value (.call "max" [.number 4, .unary .identity (.var "z")] (.builtin .max)))
      [⟨.identifier "max", 8⟩, ⟨.openParen, 11⟩, ⟨.number 4, 12⟩, ⟨.comma, 13⟩, ⟨.plus, 14⟩,
        ⟨.identifier "z", 15⟩, ⟨.closeParen, 16⟩] :=
    .call (.argument (.of_value (hnumber 4 12)) (.lastArgument hargument)) hfirst
  have hgroup : Derives twoMaxima (.value (.block (.number 7)))
      [⟨.openParen, 24⟩, ⟨.number 7, 25⟩, ⟨.closeParen, 26⟩] :=
    .group (.of_value (hnumber 7 25))
  have hoperator : ∀ (placed : Placed) {op chain tree left right},
      Derives twoMaxima (.chain chain) left → placed.token.binary? = some op →
        Derives twoMaxima (.value tree) right →
          Derives twoMaxima (.chain (chain.push op tree)) (left ++ placed :: right) :=
    fun _ _ _ _ _ _ hchain hop hvalue => .operator hchain hop (.bare hvalue)
  have hdifference := hoperator ⟨.minus, 1⟩ (.first (.bare (hname "x" 0))) rfl (hnumber 2 2)
  have hsum := @Derives.operator _ _ ⟨.plus, 3⟩ _ _ _ _ hdifference rfl
    (@Derives.sign _ ⟨.minus, 4⟩ _ _ _ rfl (.bare (hnumber 3 5)))
  have hproduct := hsum.juxtaposed rfl (hname "y" 6) fun hseam => by cases hseam.2
  have hpowers := hoperator ⟨.caret, 17⟩ (hoperator ⟨.caret, 7⟩ hproduct rfl hcall) rfl
    (hnumber 2 18)
  have hquotient := hoperator ⟨.slash, 21⟩ (hoperator ⟨.star, 19⟩ hpowers rfl (hnumber 5 20)) rfl
    (hnumber 6 22)
  have hlayered : everyOperatorArranged.Layered 0 := by
    have hpowers : ∀ base first second : Expr,
        (Arrangement.operator .pow (.operator .pow (.operand base) (.operand first))
          (.operand second)).Layered 2 := fun base first second =>
      .operator_of_le (by decide) (.operator_of_le (by decide) (.operand _) (.operand _))
        (.operand _)
    refine .operator_of_le (by decide) (.operator_of_le (by decide) (.operand _) (.operand _))
      (.operator_of_le (by decide) ?_ (.operand _))
    refine .operator_of_le (by decide) (.operator_of_le (by decide) ?_ (.operand _)) (.operand _)
    exact .operator_of_le (by decide) (.operand _) (hpowers _ _ _)
  exact .formula (hoperator ⟨.percent, 23⟩ hquotient rfl hgroup) hlayered

theorem parseTokens_everyOperator :
    (∀ placed ∈ everyOperator, placed.token.isScanned = true) ∧
      twoMaxima.parseTokens everyOperator =
        .ok (.binary .add (.binary .sub (.var "x") (.number 2))
          (.binary .mod
            (.binary .div
              (.binary .mul
                (.binary .mul (.unary .negate (.number 3))
                  (.binary .pow
                    (.binary .pow (.var "y")
                      (.call "max" [.number 4, .unary .identity (.var "z")] (.builtin .max)))
                    (.number 2)))
                (.number 5))
              (.number 6))
            (.block (.number 7)))) := by
  have hscanned : ∀ placed ∈ everyOperator, placed.token.isScanned = true := by
    simp [everyOperator, Token.isScanned]
  refine ⟨hscanned, ((parseTokens_eq_ok_iff_derives hscanned).1 _).2
    ⟨derives_everyOperator, by decide, ?_⟩⟩
  rw [Expr.height_eq_levels]
  decide

end Formula
