/-
Substitution in formulas.  Parsing with a formula in parentheses in the place of a variable
yields the tree with the tree of that formula in the place of the variable, and it succeeds
exactly if parsing with the variable does.
-/
import Formula.Proofs.Limits
import Formula.Proofs.Substitution.Tokens
import Formula.Proofs.Substitution.Trees

namespace Formula

variable {settings : Settings} {name : String} {inner tokens full : List Placed} {found : Expr}

/-- A phrase is read the same with the variable replaced, but for the trees. -/
theorem Derives.replace (hinner : Derives settings (.formula found) inner) {phrase : Phrase}
    (h : Derives settings phrase tokens) (hplain : Replaceable name tokens)
    (hreplaced : Replaced name inner tokens full) :
    Derives settings (phrase.map (·.substitute name (.block found))) full := by
  induction h generalizing full with
  | @token placed tree htree =>
      have hscanned := hplain.scanned placed List.mem_cons_self
      cases hreplaced with
      | keep hname h =>
          obtain rfl := h.eq_nil_iff.1 rfl
          rw [Phrase.map, Expr.substitute_of_tree? htree hscanned hname]
          exact .token htree
      | replace h =>
          obtain rfl := h.eq_nil_iff.1 rfl
          obtain rfl : Expr.var name = tree := Option.some.inj htree
          rw [Phrase.map, Expr.substitute_var]
          exact .group hinner
  | @call function position opening closing arguments bound tokens harguments hfunction ih =>
      obtain ⟨afterName, rfl, hafterName⟩ := hreplaced.cons_of_ne hplain.ne_of_call
      obtain ⟨afterOpen, rfl, hafterOpen⟩ := hafterName.cons_of_ne nofun
      obtain ⟨fullTokens, close, rfl, htokens, hclose⟩ := hafterOpen.split
      obtain ⟨rest, rfl, hrest⟩ := hclose.cons_of_ne nofun
      obtain rfl := hrest.eq_nil_iff.1 rfl
      have hinside := hplain.tail.tail.of_append.1
      have hlength : settings.Binds function
          (arguments.map (·.substitute name (.block found))).length bound := by
        rw [List.length_map]
        exact hfunction
      rw [Phrase.map, Expr.substitute_call]
      exact .call (ih hinside htokens) hlength
  | @group opening closing tree tokens hgroup ih =>
      obtain ⟨afterOpen, rfl, hafterOpen⟩ := hreplaced.cons_of_ne nofun
      obtain ⟨fullTokens, close, rfl, htokens, hclose⟩ := hafterOpen.split
      obtain ⟨rest, rfl, hrest⟩ := hclose.cons_of_ne nofun
      obtain rfl := hrest.eq_nil_iff.1 rfl
      exact .group (ih hplain.tail.of_append.1 htokens)
  | bare hvalue ih => exact .bare (ih hplain hreplaced)
  | @sign placed op tree tokens hop hoperand ih =>
      have hname : placed.token ≠ .identifier name := Token.ne_of_view Token.unary? rfl hop
      obtain ⟨rest, rfl, hrest⟩ := hreplaced.cons_of_ne hname
      exact .sign hop (ih hplain.tail hrest)
  | first hoperand ih => exact .first (ih hplain hreplaced)
  | @operator chain placed op tree left right hchain hop hoperand ihchain ihoperand =>
      have hname : placed.token ≠ .identifier name := Token.ne_of_view Token.binary? rfl hop
      obtain ⟨hleft, hright⟩ := hplain.of_append
      obtain ⟨fullLeft, more, rfl, hfullLeft, hmore⟩ := hreplaced.split
      obtain ⟨fullRight, rfl, hfullRight⟩ := hmore.cons_of_ne hname
      rw [Phrase.map, Chain.map_push]
      exact .operator (ihchain hleft hfullLeft) hop (ihoperand hright.tail hfullRight)
  | @juxtaposed chain tree left right himplicit hchain hvalue hseam ihchain ihvalue =>
      obtain ⟨hleft, hright⟩ := hplain.of_append
      obtain ⟨fullLeft, fullRight, rfl, hfullLeft, hfullRight⟩ := hreplaced.split
      rw [Phrase.map, Chain.map_push]
      apply Derives.juxtaposed himplicit (ihchain hleft hfullLeft) (ihvalue hright hfullRight)
      rwa [hplain.opensCall_iff hfullLeft hfullRight]
  | @formula tree tokens hchain hlayered ih =>
      have hmapped := ih hplain hreplaced
      rw [Phrase.map, ← Arrangement.chain_map] at hmapped
      rw [Phrase.map, ← Arrangement.expr_map_substitute]
      exact .formula hmapped ((Arrangement.layered_map _).2 hlayered)
  | lastArgument hformula ih => exact .lastArgument (ih hplain hreplaced)
  | @argument tree trees position tokens rest hformula hrest ihformula ihrest =>
      obtain ⟨hleft, hright⟩ := hplain.of_append
      obtain ⟨fullTokens, more, rfl, htokens, hmore⟩ := hreplaced.split
      obtain ⟨fullRest, rfl, hfullRest⟩ := hmore.cons_of_ne nofun
      exact .argument (ihformula hleft htokens) (ihrest hright.tail hfullRest)

/-- A phrase of the tokens with its trees changed. -/
def Phrase.Stems (settings : Settings) (change : Expr → Expr) (tokens : List Placed) :
    Phrase → Prop
  | value tree => ∃ source, Derives settings (.value source) tokens ∧ change source = tree
  | operand tree => ∃ source, Derives settings (.operand source) tokens ∧ change source = tree
  | chain written =>
      ∃ source : Chain, Derives settings (.chain source) tokens ∧ source.map change = written
  | formula tree => ∃ source, Derives settings (.formula source) tokens ∧ change source = tree
  | arguments trees =>
      ∃ sources, Derives settings (.arguments sources) tokens ∧ sources.map change = trees

/-- What is read with the variable replaced is read of the variable, but for the trees. -/
theorem Derives.of_replace (hinner : Derives settings (.formula found) inner)
    (hscanned : ∀ placed ∈ inner, placed.token.isScanned = true) {phrase : Phrase}
    (h : Derives settings phrase full) (hplain : Replaceable name tokens)
    (hreplaced : Replaced name inner tokens full) :
    phrase.Stems settings (·.substitute name (.block found)) tokens := by
  induction h generalizing tokens with
  | @token placed tree htree =>
      have hopen : placed.token ≠ .openParen := Token.ne_of_view Token.tree? rfl htree
      obtain ⟨rest, rfl, hname, hrest⟩ := hreplaced.of_cons hopen
      obtain rfl := hrest.eq_nil_iff.2 rfl
      have hplaced := hplain.scanned placed List.mem_cons_self
      exact ⟨tree, .token htree, Expr.substitute_of_tree? htree hplaced hname⟩
  | @call function position opening closing arguments bound tokens harguments hfunction ih =>
      obtain ⟨afterName, rfl, _, hafterName⟩ := hreplaced.of_cons nofun
      obtain ⟨afterOpen, rfl, hafterOpen⟩ := hplain.of_open hafterName
      obtain ⟨before, rfl, hbefore⟩ := hafterOpen.of_close hinner.balanced harguments.balanced
      obtain ⟨sources, hsources, rfl⟩ := ih hplain.tail.tail.of_append.1 hbefore
      rw [List.length_map] at hfunction
      exact ⟨bound.call sources, .call hsources hfunction, Expr.substitute_call _ _ _ _⟩
  | @group opening closing tree list hgroup ih =>
      generalize hrest : list ++ [(⟨.closeParen, closing⟩ : Placed)] = rest at hreplaced
      cases hreplaced with
      | keep hname h =>
          rw [← hrest] at h
          obtain ⟨before, rfl, hbefore⟩ := h.of_close hinner.balanced hgroup.balanced
          obtain ⟨source, hsource, rfl⟩ := ih hplain.tail.of_append.1 hbefore
          exact ⟨.block source, .group hsource, rfl⟩
      | @replace position _ closed _ full h =>
          -- the parentheses are those that were put in
          have hclose := splitGroup_close hinner.skipped closed full
          rw [← hrest, splitGroup_close hgroup.skipped closing []] at hclose
          obtain ⟨rfl, rfl⟩ : list = inner ∧ [] = full := by simpa using hclose
          obtain rfl := h.eq_nil_iff.2 rfl
          obtain rfl := hinner.unique hscanned hgroup
          exact ⟨.var name, .token rfl, Expr.substitute_var _ _⟩
  | bare hvalue ih =>
      obtain ⟨source, hsource, rfl⟩ := ih hplain hreplaced
      exact ⟨source, .bare hsource, rfl⟩
  | @sign placed op tree tokens hop hoperand ih =>
      have hopen : placed.token ≠ .openParen := Token.ne_of_view Token.unary? rfl hop
      obtain ⟨rest, rfl, _, hrest⟩ := hreplaced.of_cons hopen
      obtain ⟨source, hsource, rfl⟩ := ih hplain.tail hrest
      exact ⟨.unary op source, .sign hop hsource, rfl⟩
  | first hoperand ih =>
      obtain ⟨source, hsource, rfl⟩ := ih hplain hreplaced
      exact ⟨.single source, .first hsource, rfl⟩
  | @operator chain placed op tree left right hchain hop hoperand ihchain ihoperand =>
      have hopen : placed.token ≠ .openParen := Token.ne_of_view Token.binary? rfl hop
      obtain ⟨before, more, rfl, hbefore, hmore⟩ := hreplaced.cut hinner.balanced hchain.balanced
      obtain ⟨after, rfl, _, hafter⟩ := hmore.of_cons hopen
      obtain ⟨hleft, hright⟩ := hplain.of_append
      obtain ⟨sourceLeft, hsourceLeft, rfl⟩ := ihchain hleft hbefore
      obtain ⟨sourceRight, hsourceRight, rfl⟩ := ihoperand hright.tail hafter
      exact ⟨sourceLeft.push op sourceRight, .operator hsourceLeft hop hsourceRight,
        Chain.map_push _ _ _ _⟩
  | @juxtaposed chain tree left right himplicit hchain hvalue hseam ihchain ihvalue =>
      obtain ⟨before, after, rfl, hbefore, hafter⟩ := hreplaced.cut hinner.balanced hchain.balanced
      obtain ⟨hleft, hright⟩ := hplain.of_append
      obtain ⟨sourceLeft, hsourceLeft, rfl⟩ := ihchain hleft hbefore
      obtain ⟨sourceRight, hsourceRight, rfl⟩ := ihvalue hright hafter
      rw [hplain.opensCall_iff hbefore hafter] at hseam
      exact ⟨sourceLeft.push .mul sourceRight,
        .juxtaposed himplicit hsourceLeft hsourceRight hseam, Chain.map_push _ _ _ _⟩
  | @formula tree tokens hchain hlayered ih =>
      obtain ⟨source, hsource, hmap⟩ := ih hplain hreplaced
      obtain ⟨arranged, rfl, rfl⟩ := Arrangement.exists_map_eq hmap.symm
      exact ⟨arranged.expr, .formula hsource ((Arrangement.layered_map _).1 hlayered),
        (arranged.expr_map_substitute name (.block found)).symm⟩
  | lastArgument hformula ih =>
      obtain ⟨source, hsource, rfl⟩ := ih hplain hreplaced
      exact ⟨[source], .lastArgument hsource, rfl⟩
  | @argument tree trees position tokens rest hformula hrest ihformula ihrest =>
      obtain ⟨before, more, rfl, hbefore, hmore⟩ := hreplaced.cut hinner.balanced hformula.balanced
      obtain ⟨after, rfl, _, hafter⟩ := hmore.of_cons nofun
      obtain ⟨hleft, hright⟩ := hplain.of_append
      obtain ⟨source, hsource, rfl⟩ := ihformula hleft hbefore
      obtain ⟨sources, hsources, rfl⟩ := ihrest hright.tail hafter
      exact ⟨source :: sources, .argument hsource hsources, rfl⟩

/-- A formula in parentheses in the place of a variable is parsed exactly if the variable is,
to the tree with the block of that formula for the variable; and wherever that formula has a
value, it is evaluated as with the variable bound to it. -/
theorem parseTokens_replaced
    (hlibrary : ∀ function ∈ settings.functions,
      ∃ builtin, function.implementation = .builtin builtin)
    (hinnerScanned : ∀ placed ∈ inner, placed.token.isScanned = true)
    (hinner : settings.parseTokens inner = .ok found) (hplain : Replaceable name tokens)
    (hreplaced : Replaced name inner tokens full)
    (hlimit : ¬ HitsLimit (settings.parseTokens tokens))
    (hfullLimit : ¬ HitsLimit (settings.parseTokens full)) :
    ((∃ tree, settings.parseTokens full = .ok tree) ↔
      ∃ tree, settings.parseTokens tokens = .ok tree) ∧
    ∀ tree, settings.parseTokens tokens = .ok tree →
      settings.parseTokens full = .ok (tree.substitute name (.block found)) ∧
        ∀ context value, found.eval context = .ok value →
          (tree.substitute name (.block found)).eval context =
            tree.eval (context.bind name value) := by
  have hfound : Derives settings (.formula found) inner :=
    (Settings.derives_of_parseWithin hinner).1
  have hfullScanned := hreplaced.scanned hplain.scanned hinnerScanned
  have hforth : ∀ tree, settings.parseTokens tokens = .ok tree →
      settings.parseTokens full = .ok (tree.substitute name (.block found)) := by
    intro tree htree
    rw [Settings.parseTokens_of_not_hitsLimit hplain.scanned hlimit] at htree
    rw [Settings.parseTokens_of_not_hitsLimit hfullScanned hfullLimit]
    exact hfound.replace htree hplain hreplaced
  refine ⟨⟨?_, ?_⟩, ?_⟩
  · rintro ⟨tree, htree⟩
    rw [Settings.parseTokens_of_not_hitsLimit hfullScanned hfullLimit] at htree
    obtain ⟨source, hsource, _⟩ := hfound.of_replace hinnerScanned htree hplain hreplaced
    exact ⟨source, (Settings.parseTokens_of_not_hitsLimit hplain.scanned hlimit).2 hsource⟩
  · rintro ⟨tree, htree⟩
    exact ⟨_, hforth tree htree⟩
  · intro tree htree
    refine ⟨hforth tree htree, ?_⟩
    intro context value hvalue
    have hcalls : tree.CallsLibrary :=
      (Settings.derives_of_parseWithin htree).1.callsAre
        (fun function hfunction _ _ => hlibrary function hfunction) hplain.scanned
    have hblock : (Expr.block found).eval context = .ok value := hvalue
    exact Expr.eval_substitute hblock tree hcalls

/-- The tokens of `2x`. -/
def twiceVariable : List Placed := [⟨.number 2, 0⟩, ⟨.identifier "x", 1⟩]

/-- The tokens of `1+1`. -/
def onePlusOne : List Placed := [⟨.number 1, 0⟩, ⟨.plus, 1⟩, ⟨.number 1, 2⟩]

/-- The tokens of `2(1+1)`. -/
def twiceSum : List Placed := ⟨.number 2, 0⟩ :: ⟨.openParen, 1⟩ :: (onePlusOne ++ [⟨.closeParen, 5⟩])

theorem derives_twiceVariable (settings : Settings) (himplicit : settings.implicitProducts = true) :
    Derives settings (.formula (.binary .mul (.number 2) (.var "x"))) twiceVariable := by
  have hfirst : Derives settings (.value (.number 2)) [⟨.number 2, 0⟩] := .token rfl
  have hname : Derives settings (.value (.var "x")) [⟨.identifier "x", 1⟩] := .token rfl
  have hchain := Derives.juxtaposed himplicit (.first (.bare hfirst)) hname nofun
  exact @Derives.formula _ (.operator .mul (.operand (.number 2)) (.operand (.var "x"))) _ hchain
    (.operator_of_le (Nat.zero_le 1) (.operand _) (.operand _))

theorem derives_onePlusOne (settings : Settings) :
    Derives settings (.formula (.binary .add (.number 1) (.number 1))) onePlusOne := by
  have hone : ∀ position, Derives settings (.operand (.number 1)) [⟨.number 1, position⟩] :=
    fun position => .bare (.token rfl)
  have hchain : Derives settings (.chain (Chain.push (.single (.number 1)) .add (.number 1)))
      onePlusOne := .operator (.first (hone 0)) rfl (hone 2)
  exact @Derives.formula _ (.operator .add (.operand (.number 1)) (.operand (.number 1))) _ hchain
    (.operator_of_le (Nat.zero_le 0) (.operand _) (.operand _))

theorem replaced_twiceVariable : Replaced "x" onePlusOne twiceVariable twiceSum :=
  .keep nofun (.replace .nil)

theorem parseTokens_replaced_twiceVariable :
    Settings.standard.parseTokens twiceSum =
        .ok (.binary .mul (.number 2) (.block (.binary .add (.number 1) (.number 1)))) ∧
      ∀ context : Context,
        (Expr.binary .mul (.number 2) (.block (.binary .add (.number 1) (.number 1)))).eval context =
          (Expr.binary .mul (.number 2) (.var "x")).eval
            (context.bind "x" (BinaryOperator.add.apply 1 1)) := by
  have hlibrary : ∀ function ∈ Settings.standard.functions,
      ∃ builtin, function.implementation = .builtin builtin := by
    intro function hfunction
    obtain ⟨builtin, _, rfl⟩ := List.mem_map.1 hfunction
    exact ⟨builtin, rfl⟩
  have hplain : Replaceable "x" twiceVariable := by
    constructor
    · simp [twiceVariable, Token.isScanned]
    · simp [twiceVariable, Token.isName]
  have hscanned : ∀ placed ∈ onePlusOne, placed.token.isScanned = true := by
    simp [onePlusOne, Token.isScanned]
  have hsum : Settings.standard.parseTokens onePlusOne =
      .ok (.binary .add (.number 1) (.number 1)) :=
    (Settings.parseTokens_of_scanned hscanned).2 ⟨derives_onePlusOne _, by decide, by decide⟩
  have htwice : Settings.standard.parseTokens twiceVariable =
      .ok (.binary .mul (.number 2) (.var "x")) :=
    (Settings.parseTokens_of_scanned hplain.scanned).2
      ⟨derives_twiceVariable _ rfl, by decide, by decide⟩
  have hfull : Settings.standard.parseTokens twiceSum =
      .ok (.binary .mul (.number 2) (.block (.binary .add (.number 1) (.number 1)))) :=
    (Settings.parseTokens_of_scanned
      (replaced_twiceVariable.scanned hplain.scanned hscanned)).2
      ⟨(derives_onePlusOne _).replace (derives_twiceVariable _ rfl) hplain replaced_twiceVariable,
        by decide, by decide⟩
  have hlimit := htwice ▸ not_hitsLimit_ok _
  have hfullLimit := hfull ▸ not_hitsLimit_ok _
  obtain ⟨hparse, heval⟩ := (parseTokens_replaced hlibrary hscanned hsum hplain
    replaced_twiceVariable hlimit hfullLimit).2 _ htwice
  exact ⟨hparse, fun context => heval context _ rfl⟩

end Formula
