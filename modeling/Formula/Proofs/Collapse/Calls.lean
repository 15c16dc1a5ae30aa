/-
Collapsing calls.  A list whose calls collapse is the list of the grammar with its
calls replaced; and where the arguments of its calls are parsed, a phrase of the
grammar collapses to one that is read the same.
-/
import Formula.Proofs.Collapse.Collapsed
import Formula.Proofs.Collapse.Splitting
import Formula.Proofs.Nesting
import Formula.Proofs.Outcome

namespace Formula

/-- What collapsing calls yields. -/
inductive CallsCollapse (parse : InnerParser) (settings : Settings) :
    List Placed → List Placed → Prop
  | nil : CallsCollapse parse settings [] []
  | call {name : String} {position opening : Nat} {rest after short : List Placed}
      {spans : List Span} {arguments : List Expr} {function : Function}
      (hsplit : splitArguments 0 [] rest = (spans, some after))
      (harguments : spans.mapM (parseArgument parse) = .ok arguments)
      (hfunction : settings.function? name arguments.length = some function)
      (h : CallsCollapse parse settings after short) :
      CallsCollapse parse settings
        (⟨.identifier name, position⟩ :: ⟨.openParen, opening⟩ :: rest)
        (⟨.call (function.call arguments), position⟩ :: short)
  | keep {placed : Placed} {rest short : List Placed}
      (hseam : ¬ (placed.token.isName ∧ startsOpen rest))
      (h : CallsCollapse parse settings rest short) :
      CallsCollapse parse settings (placed :: rest) (placed :: short)

variable {parse : InnerParser} {settings : Settings}

theorem bindCall_eq_ok_iff {name : String} {position : Nat} {arguments : List Expr}
    {placed : Placed} :
    bindCall settings name position arguments = .ok placed ↔
      ∃ function, settings.function? name arguments.length = some function ∧
        placed = ⟨.call (function.call arguments), position⟩ := by
  unfold bindCall
  cases settings.function? name arguments.length with
  | none => simp [throw, throwThe, MonadExceptOf.throw]
  | some function => simp [pure, Except.pure, eq_comm]

theorem collapseCalls_call {name : String} {position opening : Nat} {rest after : List Placed}
    {spans : List Span} (hsplit : splitArguments 0 [] rest = (spans, some after)) :
    collapseCalls parse settings
        (⟨.identifier name, position⟩ :: ⟨.openParen, opening⟩ :: rest) =
      (spans.mapM (parseArgument parse) >>= fun arguments =>
        bindCall settings name position arguments >>= fun call =>
          collapseCalls parse settings after >>= fun short => .ok (call :: short)) := by
  rw [collapseCalls]
  split
  · rename_i heq
    obtain ⟨rfl, hafter⟩ := Prod.mk.inj (hsplit.symm.trans heq)
    obtain rfl := Option.some.inj hafter
    rfl
  · rename_i heq
    cases (Prod.mk.inj (hsplit.symm.trans heq)).2

theorem collapseCalls_unclosed {name : String} {position opening : Nat} {rest : List Placed}
    {spans : List Span} (hsplit : splitArguments 0 [] rest = (spans, none)) :
    collapseCalls parse settings
        (⟨.identifier name, position⟩ :: ⟨.openParen, opening⟩ :: rest) =
      (spans.mapM (parseArgument parse) >>= fun _ => .error ⟨.unclosedCall name, position⟩) := by
  rw [collapseCalls]
  split
  · rename_i heq
    cases (Prod.mk.inj (hsplit.symm.trans heq)).2
  · rename_i heq
    obtain ⟨rfl, _⟩ := Prod.mk.inj (hsplit.symm.trans heq)
    rfl

theorem collapseCalls_nil : collapseCalls parse settings [] = .ok [] := by
  rw [collapseCalls]
  rfl

theorem collapseCalls_keep {placed : Placed} {rest : List Placed}
    (hseam : ¬ (placed.token.isName ∧ startsOpen rest)) :
    collapseCalls parse settings (placed :: rest) =
      (collapseCalls parse settings rest >>= fun short => .ok (placed :: short)) := by
  rw [collapseCalls]
  · rfl
  · rintro name position opening tail rfl rfl
    exact hseam ⟨rfl, rfl⟩

/-- A list is empty, opens with a call whose arguments close or do not, or opens with a
token that is kept. -/
@[elab_as_elim]
theorem calls_induction {motive : List Placed → Prop} (nil : motive [])
    (call : ∀ name position opening rest spans after,
      splitArguments 0 [] rest = (spans, some after) → motive after →
      motive (⟨.identifier name, position⟩ :: ⟨.openParen, opening⟩ :: rest))
    (unclosed : ∀ name position opening rest spans,
      splitArguments 0 [] rest = (spans, none) →
      motive (⟨.identifier name, position⟩ :: ⟨.openParen, opening⟩ :: rest))
    (keep : ∀ placed rest, ¬ (placed.token.isName ∧ startsOpen rest) → motive rest →
      motive (placed :: rest))
    (tokens : List Placed) : motive tokens := by
  induction tokens using collapseCalls.induct with
  | case1 name position opening rest spans after hsplit ih =>
      exact call name position opening rest spans after hsplit ih
  | case2 name position opening rest spans hsplit =>
      exact unclosed name position opening rest spans hsplit
  | case3 placed rest hno ih =>
      refine keep placed rest ?_ ih
      rintro ⟨hname, hopen⟩
      obtain ⟨name, position, rfl⟩ := eq_of_isName hname
      obtain ⟨opening, tail, rfl⟩ := eq_of_startsOpen hopen
      exact hno name position opening tail rfl rfl
  | case4 => exact nil

theorem collapseCalls_eq_ok_iff {tokens short : List Placed} :
    collapseCalls parse settings tokens = .ok short ↔
      CallsCollapse parse settings tokens short := by
  constructor
  · intro h
    induction tokens using calls_induction generalizing short with
    | nil =>
        rw [collapseCalls_nil] at h
        cases h
        exact .nil
    | call name position opening rest spans after hsplit ih =>
        rw [collapseCalls_call hsplit] at h
        obtain ⟨arguments, harguments, hrest⟩ := bind_eq_ok_iff.1 h
        obtain ⟨call, hcall, hmore⟩ := bind_eq_ok_iff.1 hrest
        obtain ⟨function, hfunction, rfl⟩ := bindCall_eq_ok_iff.1 hcall
        obtain ⟨tail, htail, hresult⟩ := bind_eq_ok_iff.1 hmore
        cases hresult
        exact .call hsplit harguments hfunction (ih htail)
    | unclosed name position opening rest spans hsplit =>
        rw [collapseCalls_unclosed hsplit] at h
        obtain ⟨_, _, hthrow⟩ := bind_eq_ok_iff.1 h
        cases hthrow
    | keep placed rest hseam ih =>
        rw [collapseCalls_keep hseam] at h
        obtain ⟨tail, htail, hresult⟩ := bind_eq_ok_iff.1 h
        cases hresult
        exact .keep hseam (ih htail)
  · intro h
    induction h with
    | nil => exact collapseCalls_nil
    | @call name position opening rest after short spans arguments function hsplit harguments
        hfunction h ih =>
        have hbind : bindCall settings name position arguments =
            .ok ⟨.call (function.call arguments), position⟩ :=
          bindCall_eq_ok_iff.2 ⟨function, hfunction, rfl⟩
        rw [collapseCalls_call hsplit]
        exact bind_eq_ok_iff.2 ⟨arguments, harguments, bind_eq_ok_iff.2
          ⟨_, hbind, bind_eq_ok_iff.2 ⟨short, ih, rfl⟩⟩⟩
    | keep hseam h ih =>
        rw [collapseCalls_keep hseam, ih]
        rfl

theorem parseArgument_of_ne_nil (parse : InnerParser) {span : Span} (h : span.tokens ≠ []) :
    parseArgument parse span = parse span.tokens := by
  rw [parseArgument, if_neg (by simpa using h)]

theorem parseArgument_eq_ok_iff {span : Span} {tree : Expr} :
    parseArgument parse span = .ok tree ↔ span.tokens ≠ [] ∧ parse span.tokens = .ok tree := by
  constructor
  · intro h
    by_cases hempty : span.tokens = []
    · rw [parseArgument, if_pos (by simpa using hempty)] at h
      cases h
    · exact ⟨hempty, by rwa [parseArgument_of_ne_nil parse hempty] at h⟩
  · rintro ⟨hne, hparse⟩
    rw [parseArgument_of_ne_nil parse hne, hparse]

theorem parse_of_parseArgument {span : Span} {tree : Expr}
    (h : parseArgument parse span = .ok tree) : parse span.tokens = .ok tree :=
  (parseArgument_eq_ok_iff.1 h).2

theorem Joins.derives {closing : Nat} {spans : List Span} {tokens : List Placed}
    (h : Joins closing spans tokens) {arguments : List Expr}
    (harguments : List.Forall₂ (fun span tree => Derives settings (.formula tree) span.tokens)
      spans arguments) : Derives settings (.arguments arguments) tokens := by
  induction h generalizing arguments with
  | last =>
      cases harguments with
      | cons hformula hrest =>
          cases hrest
          exact .lastArgument hformula
  | more h ih =>
      cases harguments with
      | cons hformula hrest => exact .argument hformula (ih hrest)

/-- The arguments that the grammar reads are found where the list is split. -/
theorem Derives.joins {arguments : List Expr} {tokens : List Placed}
    (h : Derives settings (.arguments arguments) tokens) (closing : Nat) :
    ∃ spans, Joins closing spans tokens ∧
      List.Forall₂ (fun span tree => Derives settings (.formula tree) span.tokens) spans
        arguments := by
  generalize hphrase : Phrase.arguments arguments = phrase at h
  induction h generalizing arguments with
  | @lastArgument tree tokens hformula ih =>
      cases hphrase
      exact ⟨[⟨tokens, closing⟩], .last, .cons hformula .nil⟩
  | @argument tree trees position tokens rest hformula hrest ihformula ihrest =>
      cases hphrase
      obtain ⟨spans, hjoins, hall⟩ := ihrest rfl
      exact ⟨⟨tokens, position⟩ :: spans, .more hjoins, .cons hformula hall⟩
  | _ => cases hphrase

namespace CallsCollapse

variable {tokens short : List Placed}

theorem startsOpen_imp (h : CallsCollapse parse settings tokens short)
    (hopen : startsOpen short = true) : startsOpen tokens = true := by
  cases h with
  | nil => exact hopen
  | call => cases hopen
  | keep hseam h => exact hopen

theorem eq_nil_iff (h : CallsCollapse parse settings tokens short) :
    tokens = [] ↔ short = [] := by
  cases h <;> simp

theorem callFree (h : CallsCollapse parse settings tokens short) : CallFree short := by
  induction h with
  | nil => exact List.isChain_nil
  | call hsplit harguments hfunction h ih => exact .cons (fun hseam => by cases hseam.1) ih
  | keep hseam h ih => exact .cons (fun hboth => hseam ⟨hboth.1, h.startsOpen_imp hboth.2⟩) ih

/-- Another parser that parses the arguments alike, and binds the calls alike. -/
theorem imp {other : InnerParser} {otherSettings : Settings}
    (h : CallsCollapse parse settings tokens short)
    (hbinds : ∀ name arity function, settings.function? name arity = some function →
      otherSettings.function? name arity = some function)
    (hparse : ∀ function arguments position,
      ⟨.call (Function.call function arguments), position⟩ ∈ short →
      ∀ argument ∈ arguments, ∀ inner, parse inner = .ok argument → other inner = .ok argument) :
    CallsCollapse other otherSettings tokens short := by
  induction h with
  | nil => exact .nil
  | @call name position opening rest after short spans arguments function hsplit harguments
      hfunction h ih =>
      have hother : spans.mapM (parseArgument other) = .ok arguments := by
        apply mapM_eq_ok_of_forall₂ (mapM_eq_ok_iff.1 harguments)
        intro span _ argument hargument hspan
        obtain ⟨hne, hok⟩ := parseArgument_eq_ok_iff.1 hspan
        have hinner := hparse function arguments position List.mem_cons_self argument hargument
        exact parseArgument_eq_ok_iff.2 ⟨hne, hinner span.tokens hok⟩
      apply CallsCollapse.call hsplit hother (hbinds _ _ _ hfunction)
      exact ih fun function arguments position hmem =>
        hparse function arguments position (List.mem_cons_of_mem _ hmem)
  | keep hseam h ih =>
      apply CallsCollapse.keep hseam
      exact ih fun function arguments position hmem =>
        hparse function arguments position (List.mem_cons_of_mem _ hmem)

/-- Calls are replaced by what the grammar reads them as. -/
theorem collapsed (h : CallsCollapse parse settings tokens short)
    (hparse : ∀ inner tree, parse inner = .ok tree → Derives settings (.formula tree) inner) :
    Collapsed settings false tokens short := by
  induction h with
  | nil => exact .nil
  | keep hseam h ih => exact .keep ih
  | @call name position opening rest after short spans arguments function hsplit harguments
      hfunction h ih =>
      obtain ⟨list, closing, rfl, hjoins⟩ := exists_joins hsplit
      have hformulas := (mapM_eq_ok_iff.1 harguments).imp fun span tree hspan =>
        hparse _ tree (parse_of_parseArgument hspan)
      have hcall : Derives settings (.value (function.call arguments))
          (⟨.identifier name, position⟩ :: ⟨.openParen, opening⟩ ::
            (list ++ [⟨.closeParen, closing⟩])) :=
        .call (hjoins.derives hformulas) (Settings.function?_eq_some_iff.1 hfunction)
      have happend : (⟨.identifier name, position⟩ :: ⟨.openParen, opening⟩ ::
          (list ++ ⟨.closeParen, closing⟩ :: after) : List Placed) =
            (⟨.identifier name, position⟩ :: ⟨.openParen, opening⟩ ::
              (list ++ [⟨.closeParen, closing⟩])) ++ after := by
        simp
      rw [happend]
      refine .value rfl rfl hcall ?_ ?_ ih
      · exact endsInName_append_of_ne_nil (_ :: _ :: list) (List.cons_ne_nil _ _)
      · intro hstarts
        cases hstarts

/-- A token is one of the list, or a call whose arguments were parsed in it. -/
def Origin (parse : InnerParser) (tokens : List Placed) (placed : Placed) : Prop :=
  placed ∈ tokens ∨ ∃ function arguments,
    placed.token = .call (Function.call function arguments) ∧ arguments ≠ [] ∧
      ∀ argument ∈ arguments, ∃ inner, inner <:+: tokens ∧ parse inner = .ok argument

theorem Origin.widen {segment : List Placed} {placed : Placed}
    (h : Origin parse segment placed) (hsegment : segment <:+: tokens) :
    Origin parse tokens placed := by
  rcases h with hkept | ⟨function, arguments, hcall, hne, hparsed⟩
  · exact .inl (hsegment.subset hkept)
  · refine .inr ⟨function, arguments, hcall, hne, fun argument hargument => ?_⟩
    obtain ⟨inner, hinner, hok⟩ := hparsed argument hargument
    exact ⟨inner, hinner.trans hsegment, hok⟩

/-- Where the collapsed tokens come from. -/
theorem origin (h : CallsCollapse parse settings tokens short) {placed : Placed}
    (hplaced : placed ∈ short) : Origin parse tokens placed := by
  induction h with
  | nil => cases hplaced
  | @call name position opening rest after short spans arguments function hsplit harguments
      hfunction h ih =>
      obtain ⟨list, closing, rfl, hjoins⟩ := exists_joins hsplit
      rcases List.mem_cons.1 hplaced with rfl | hplaced
      · have hne : arguments ≠ [] := by
          rintro rfl
          cases mapM_eq_ok_iff.1 harguments
          cases hjoins
        refine .inr ⟨function, arguments, rfl, hne, fun argument hargument => ?_⟩
        obtain ⟨span, hspan, hspanArgument⟩ := exists_of_mapM_eq_ok harguments hargument
        exact ⟨span.tokens, (hjoins.segment hspan).trans (segment_call _ _ _ _ _),
          parse_of_parseArgument hspanArgument⟩
      · refine (ih hplaced).widen ?_
        exact segment_behind (⟨.identifier name, position⟩ :: ⟨.openParen, opening⟩ :: list) _ after
  | keep hseam h ih =>
      rcases List.mem_cons.1 hplaced with rfl | hplaced
      · exact .inl List.mem_cons_self
      · exact (ih hplaced).widen (List.suffix_cons _ _).isInfix

end CallsCollapse

/-- Where there are no calls nothing collapses. -/
theorem CallFree.callsCollapse_iff {tokens short : List Placed} (h : CallFree tokens) :
    CallsCollapse parse settings tokens short ↔ short = tokens := by
  constructor
  · intro hcollapse
    induction hcollapse with
    | nil => rfl
    | call => exact absurd ⟨rfl, rfl⟩ (List.isChain_cons_cons.1 h).1
    | keep hseam hrest ih => rw [ih h.tail]
  · rintro rfl
    induction short with
    | nil => exact .nil
    | cons placed rest ih => exact .keep h.seam (ih h.tail)

/-- Tokens collapse to other tokens, whatever follows that does not open a call. -/
structure CallsCollapseTo (parse : InnerParser) (settings : Settings)
    (tokens short : List Placed) : Prop where
  ne_nil : tokens ≠ []
  short_ne_nil : short ≠ []
  ends : endsInName short = true → endsInName tokens = true
  starts : startsOpen short = true → startsOpen tokens = true
  collapse : ∀ rest more, ¬ (endsInName tokens ∧ startsOpen rest) →
    CallsCollapse parse settings rest more →
    CallsCollapse parse settings (tokens ++ rest) (short ++ more)

namespace CallsCollapseTo

theorem single (placed : Placed) : CallsCollapseTo parse settings [placed] [placed] where
  ne_nil := List.cons_ne_nil _ _
  short_ne_nil := List.cons_ne_nil _ _
  ends := id
  starts := id
  collapse _ _ hseam h := .keep hseam h

theorem append {left right shortLeft shortRight : List Placed}
    (hleft : CallsCollapseTo parse settings left shortLeft)
    (hright : CallsCollapseTo parse settings right shortRight)
    (hseam : ¬ (endsInName left ∧ startsOpen right)) :
    CallsCollapseTo parse settings (left ++ right) (shortLeft ++ shortRight) where
  ne_nil := List.append_ne_nil_of_left_ne_nil hleft.ne_nil _
  short_ne_nil := List.append_ne_nil_of_left_ne_nil hleft.short_ne_nil _
  ends := by
    rw [endsInName_append_of_ne_nil _ hright.ne_nil,
      endsInName_append_of_ne_nil _ hright.short_ne_nil]
    exact hright.ends
  starts := by
    rw [startsOpen_append_of_ne_nil hleft.ne_nil,
      startsOpen_append_of_ne_nil hleft.short_ne_nil]
    exact hleft.starts
  collapse rest more hrest h := by
    rw [endsInName_append_of_ne_nil _ hright.ne_nil] at hrest
    rw [List.append_assoc, List.append_assoc]
    refine hleft.collapse _ _ ?_ (hright.collapse rest more hrest h)
    rwa [startsOpen_append_of_ne_nil hright.ne_nil]

theorem parentheses {tokens short : List Placed} (h : CallsCollapseTo parse settings tokens short)
    (opening closing : Nat) :
    CallsCollapseTo parse settings (⟨.openParen, opening⟩ :: (tokens ++ [⟨.closeParen, closing⟩]))
      (⟨.openParen, opening⟩ :: (short ++ [⟨.closeParen, closing⟩])) := by
  have hclosed := h.append (single ⟨.closeParen, closing⟩) (fun hseam => by cases hseam.2)
  exact (single ⟨.openParen, opening⟩).append hclosed (fun hseam => by cases hseam.1)

end CallsCollapseTo

/-- A call collapses where its arguments are parsed. -/
theorem CallsCollapseTo.call {name : String} {position opening closing : Nat}
    {arguments : List Expr} {function : Function} {tokens : List Placed}
    (harguments : Derives settings (.arguments arguments) tokens)
    (hfunction : settings.Binds name arguments.length function)
    (hparse : Parses parse settings arguments tokens) :
    CallsCollapseTo parse settings
      (⟨.identifier name, position⟩ :: ⟨.openParen, opening⟩ ::
        (tokens ++ [⟨.closeParen, closing⟩]))
      [⟨.call (function.call arguments), position⟩] := by
  obtain ⟨spans, hjoins, hall⟩ := harguments.joins closing
  have hskipped : ∀ span ∈ spans, Skipped 0 span.tokens := by
    intro span hspan
    obtain ⟨tree, _, hformula⟩ := exists_of_forall₂ hall hspan
    exact hformula.skipped
  have hparsed : spans.mapM (parseArgument parse) = .ok arguments := by
    refine mapM_eq_ok_of_forall₂ hall fun span hspan tree htree hformula => ?_
    rw [parseArgument_of_ne_nil parse hformula.ne_nil]
    exact hparse tree htree span.tokens (hjoins.segment hspan) hformula
  constructor
  case ne_nil => exact List.cons_ne_nil _ _
  case short_ne_nil => exact List.cons_ne_nil _ _
  case ends => intro hends; cases hends
  case starts => intro hstarts; cases hstarts
  case collapse =>
    intro rest more _ hmore
    have hsplit := splitArguments_close hjoins hskipped rest
    rw [List.cons_append, List.cons_append, List.append_assoc]
    exact .call hsplit hparsed (Settings.function?_eq_some_iff.2 hfunction) hmore

/-- Where the arguments of its calls are parsed, a phrase collapses to the same phrase. -/
theorem Derives.callsCollapseTo {phrase : Phrase} {tokens : List Placed}
    (h : Derives settings phrase tokens)
    (hparse : Parses parse settings (phrase.gather Expr.callArguments) tokens) :
    ∃ short, CallsCollapseTo parse settings tokens short ∧ Derives settings phrase short := by
  induction h with
  | @token placed tree htree => exact ⟨[placed], .single placed, .token htree⟩
  | @call name position opening closing arguments function tokens harguments hfunction ih =>
      have hinner := hparse.segment (segment_call _ opening closing tokens [])
      exact ⟨_, .call harguments hfunction hinner, .token rfl⟩
  | @group opening closing inner tokens hinner ih =>
      obtain ⟨short, hcollapse, hderives⟩ :=
        ih (hparse.segment (segment_parentheses opening closing tokens []))
      exact ⟨_, hcollapse.parentheses opening closing, .group hderives⟩
  | bare hvalue ih =>
      obtain ⟨short, hcollapse, hderives⟩ := ih hparse
      exact ⟨short, hcollapse, .bare hderives⟩
  | @sign placed op tree tokens hop hoperand ih =>
      obtain ⟨short, hcollapse, hderives⟩ := ih hparse.tail
      have hname : endsInName [placed] = false := Token.isName_of_unary? hop
      refine ⟨placed :: short, (CallsCollapseTo.single placed).append hcollapse ?_,
        .sign hop hderives⟩
      simp [hname]
  | first hoperand ih =>
      rw [Phrase.gather_single] at hparse
      obtain ⟨short, hcollapse, hderives⟩ := ih hparse
      exact ⟨short, hcollapse, .first hderives⟩
  | @operator chain placed op tree left right hchain hop hoperand ihchain ihoperand =>
      rw [Phrase.gather_push] at hparse
      obtain ⟨shortLeft, hleft, hleftDerives⟩ := ihchain hparse.of_append.1
      obtain ⟨shortRight, hright, hrightDerives⟩ := ihoperand hparse.of_append.2.tail
      have hplaced : placed.token.isOpen = false := Token.isOpen_of_binary? hop
      have hname : endsInName [placed] = false := Token.isName_of_binary? hop
      refine ⟨shortLeft ++ placed :: shortRight, ?_, .operator hleftDerives hop hrightDerives⟩
      refine hleft.append ((CallsCollapseTo.single placed).append hright ?_) ?_
      · simp [hname]
      · simp [startsOpen, hplaced]
  | @juxtaposed chain tree left right himplicit hchain hvalue hseam ihchain ihvalue =>
      rw [Phrase.gather_push] at hparse
      obtain ⟨shortLeft, hleft, hleftDerives⟩ := ihchain hparse.of_append.1
      obtain ⟨shortRight, hright, hrightDerives⟩ := ihvalue hparse.of_append.2
      refine ⟨shortLeft ++ shortRight, hleft.append hright hseam,
        .juxtaposed himplicit hleftDerives hrightDerives ?_⟩
      exact fun hboth => hseam ⟨hleft.ends hboth.1, hright.starts hboth.2⟩
  | @formula tree tokens hchain hlayered ih =>
      rw [← Phrase.gather_formula fun _ _ _ => rfl] at hparse
      obtain ⟨short, hcollapse, hderives⟩ := ih hparse
      exact ⟨short, hcollapse, .formula hderives hlayered⟩
  | lastArgument hformula ih =>
      rw [Phrase.gather_lastArgument] at hparse
      obtain ⟨short, hcollapse, hderives⟩ := ih hparse
      exact ⟨short, hcollapse, .lastArgument hderives⟩
  | @argument tree trees position tokens rest hformula hrest ihformula ihrest =>
      rw [Phrase.gather_argument] at hparse
      obtain ⟨shortFormula, hleft, hleftDerives⟩ := ihformula hparse.of_append.1
      obtain ⟨shortRest, hright, hrightDerives⟩ := ihrest hparse.of_append.2.tail
      refine ⟨shortFormula ++ ⟨.comma, position⟩ :: shortRest, ?_,
        .argument hleftDerives hrightDerives⟩
      refine hleft.append ((CallsCollapseTo.single _).append hright ?_) ?_
      · exact fun hboth => by cases hboth.1
      · exact fun hboth => by cases hboth.2

end Formula
