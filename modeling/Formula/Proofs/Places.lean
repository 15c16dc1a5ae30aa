/-
The places of faults.  Collapsed tokens and stars that are put in take their positions from the
tokens of the list, so every fault of a list is found at one of its tokens, and one of the kind
that the fault is about.
-/
import Formula.Proofs.Refusal
import Formula.Proofs.Scanning.Streaming

namespace Formula

/-- What a fault of the parser is about: the token that it is found at, with those behind it. -/
def ParseFault.Marks (settings : Settings) (token : Token) (behind : List Placed) :
    ParseFault → Prop
  | emptyArgument => token = .comma ∨ token = .closeParen
  | emptyBlock => token = .openParen
  | unclosedBlock => token = .openParen
  | unmatchedClose => token = .closeParen
  | unexpectedComma => token = .comma
  | unclosedCall name => token = .identifier name ∧ startsOpen behind = true
  | unknownFunction name _ => token = .identifier name ∧ startsOpen behind = true
  | noRootOperation => settings.implicitProducts = true → token.isOperator = true
  | tooDeep _ => True
  | emptyExpression => False
  | unknownCharacter _ => False
  | invalidNumber => False

/-- One of the tokens has the position of the error and is of the kind that its fault is
about. -/
def ParseError.PointsInto (settings : Settings) (tokens : List Placed) (error : ParseError) :
    Prop :=
  ∃ before placed behind, tokens = before ++ placed :: behind ∧
    placed.position = error.position ∧ error.fault.Marks settings placed.token behind

theorem startsOpen_append {left : List Placed} (h : startsOpen left = true)
    (right : List Placed) : startsOpen (left ++ right) = true := by
  obtain ⟨opening, rest, rfl⟩ := eq_of_startsOpen h
  rfl

theorem ParseFault.Marks.append {settings : Settings} {token : Token} {behind : List Placed}
    {fault : ParseFault} (h : fault.Marks settings token behind) (more : List Placed) :
    fault.Marks settings token (behind ++ more) := by
  cases fault with
  | unclosedCall name => exact ⟨h.1, startsOpen_append h.2 more⟩
  | unknownFunction name arity => exact ⟨h.1, startsOpen_append h.2 more⟩
  | _ => exact h

namespace ParseError.PointsInto

variable {settings : Settings} {tokens : List Placed} {error : ParseError}

theorem of_mem {fault : ParseFault} {placed : Placed} (hplaced : placed ∈ tokens)
    (hmarks : ∀ behind, fault.Marks settings placed.token behind) :
    PointsInto settings tokens ⟨fault, placed.position⟩ := by
  obtain ⟨before, behind, rfl⟩ := List.append_of_mem hplaced
  exact ⟨before, placed, behind, rfl, rfl, hmarks behind⟩

theorem widen {segment : List Placed} (h : PointsInto settings segment error)
    (hsegment : segment <:+: tokens) : PointsInto settings tokens error := by
  obtain ⟨before, placed, behind, rfl, hposition, hmarks⟩ := h
  obtain ⟨front, back, rfl⟩ := hsegment
  exact ⟨front ++ before, placed, behind ++ back, by simp, hposition, hmarks.append back⟩

theorem exists_position (h : PointsInto settings tokens error) :
    ∃ placed ∈ tokens, placed.position = error.position := by
  obtain ⟨before, placed, behind, rfl, hposition, _⟩ := h
  exact ⟨placed, by simp, hposition⟩

end ParseError.PointsInto

/-! Collapsing. -/

/-- A token is one of the list, or a value that has taken its position from one. -/
def Stands (tokens : List Placed) (placed : Placed) : Prop :=
  placed ∈ tokens ∨ placed.isValue = true ∧ ∃ other ∈ tokens, other.position = placed.position

theorem Stands.widen {segment tokens : List Placed} {placed : Placed} (h : Stands segment placed)
    (hsegment : segment ⊆ tokens) : Stands tokens placed := by
  rcases h with hkept | ⟨hvalue, other, hother, hposition⟩
  · exact .inl (hsegment hkept)
  · exact .inr ⟨hvalue, other, hsegment hother, hposition⟩

theorem Stands.exists_position {tokens : List Placed} {placed : Placed} (h : Stands tokens placed) :
    ∃ other ∈ tokens, other.position = placed.position := by
  rcases h with hkept | ⟨_, hother⟩
  · exact ⟨placed, hkept, rfl⟩
  · exact hother

/-- A token that stands for no value is one of the list. -/
theorem Stands.mem {tokens : List Placed} {placed : Placed} (h : Stands tokens placed)
    (hvalue : placed.isValue = false) : placed ∈ tokens := by
  rcases h with hkept | ⟨hother, _⟩
  · exact hkept
  · rw [hvalue] at hother
    cases hother

theorem CallsCollapse.stands {parse : InnerParser} {settings : Settings}
    {tokens short : List Placed} (h : CallsCollapse parse settings tokens short) {placed : Placed}
    (hplaced : placed ∈ short) : Stands tokens placed := by
  induction h with
  | nil => cases hplaced
  | @call name position opening rest after short spans arguments function hsplit harguments
      hfunction h ih =>
      obtain ⟨list, closing, rfl, _⟩ := exists_joins hsplit
      rcases List.mem_cons.1 hplaced with rfl | hplaced
      · exact .inr ⟨rfl, ⟨.identifier name, position⟩, List.mem_cons_self, rfl⟩
      · exact (ih hplaced).widen (segment_behind (_ :: _ :: list) _ after).subset
  | keep hseam h ih =>
      rcases List.mem_cons.1 hplaced with rfl | hplaced
      · exact .inl List.mem_cons_self
      · exact (ih hplaced).widen (List.subset_cons_self _ _)

theorem GroupsCollapse.stands {parse : InnerParser} {tokens short : List Placed}
    (h : GroupsCollapse parse tokens short) {placed : Placed} (hplaced : placed ∈ short) :
    Stands tokens placed := by
  induction h with
  | nil => cases hplaced
  | @group opening rest inner after short tree hsplit hne hinner h ih =>
      obtain ⟨closing, rfl⟩ := exists_closing hsplit
      rcases List.mem_cons.1 hplaced with rfl | hplaced
      · exact .inr ⟨rfl, ⟨.openParen, opening⟩, List.mem_cons_self, rfl⟩
      · exact (ih hplaced).widen (segment_behind (_ :: inner) _ after).subset
  | keep hopen hclose h ih =>
      rcases List.mem_cons.1 hplaced with rfl | hplaced
      · exact .inl List.mem_cons_self
      · exact (ih hplaced).widen (List.subset_cons_self _ _)

/-- Once calls are gone, a fault of collapsed tokens is one of the tokens they stand for. -/
theorem ParseError.PointsInto.of_stands {settings : Settings} {tokens short : List Placed}
    {error : ParseError} (h : error.PointsInto settings short)
    (hstands : ∀ placed ∈ short, Stands tokens placed) (hfree : CallFree short) :
    error.PointsInto settings tokens := by
  obtain ⟨before, placed, behind, rfl, hposition, hmarks⟩ := h
  obtain ⟨fault, position⟩ := error
  obtain rfl : placed.position = position := hposition
  have hplaced : Stands tokens placed := hstands placed (by simp)
  have hname : ∀ name, ¬ (placed.token = .identifier name ∧ startsOpen behind = true) := by
    rintro name ⟨htoken, hopen⟩
    apply (hfree.segment (List.suffix_append _ _).isInfix).seam
    exact ⟨by rw [htoken]; rfl, hopen⟩
  -- what is about a token that is no value is about a token of the list
  have hkept : placed.isValue = false → (∀ behind, fault.Marks settings placed.token behind) →
      PointsInto settings tokens ⟨fault, placed.position⟩ :=
    fun hvalue => .of_mem (hplaced.mem hvalue)
  obtain ⟨token, position⟩ := placed
  cases fault with
  | emptyArgument =>
      refine hkept ?_ fun _ => hmarks
      rcases hmarks with rfl | rfl <;> rfl
  | emptyBlock | unclosedBlock | unmatchedClose | unexpectedComma =>
      refine hkept ?_ fun _ => hmarks
      obtain rfl := hmarks
      rfl
  | unclosedCall name => exact absurd hmarks (hname name)
  | unknownFunction name arity => exact absurd hmarks (hname name)
  | noRootOperation =>
      by_cases himplicit : settings.implicitProducts = true
      · refine hkept ?_ fun _ => hmarks
        obtain ⟨op, hop⟩ := Option.isSome_iff_exists.1 (hmarks himplicit)
        exact Token.isValue_of_binary? hop
      · obtain ⟨other, hother, heq⟩ := hplaced.exists_position
        rw [← heq]
        exact .of_mem hother fun _ h => absurd h himplicit
  | tooDeep depth =>
      obtain ⟨other, hother, heq⟩ := hplaced.exists_position
      rw [← heq]
      exact .of_mem hother fun _ => trivial
  | emptyExpression | unknownCharacter | invalidNumber => exact hmarks.elim

/-! The passes. -/

section Passes

variable {parse : InnerParser} {settings : Settings} {tokens : List Placed}
  (hparse : ∀ inner, inner ≠ [] → Blames (ParseError.PointsInto settings inner) (parse inner))

include hparse

theorem collapseCalls_pointsInto :
    Blames (ParseError.PointsInto settings tokens) (collapseCalls parse settings tokens) := by
  have hpair : ∀ fault name position opening,
      [(⟨.identifier name, position⟩ : Placed), ⟨.openParen, opening⟩] <:+: tokens →
      (∀ behind, startsOpen behind = true → fault.Marks settings (.identifier name) behind) →
      ParseError.PointsInto settings tokens ⟨fault, position⟩ := by
    rintro fault name position opening ⟨before, behind, rfl⟩ hmarks
    exact ⟨before, ⟨.identifier name, position⟩, ⟨.openParen, opening⟩ :: behind, by simp, rfl,
      hmarks _ rfl⟩
  apply Blames.collapseCalls
  constructor
  · intro inner hne hinside
    exact (hparse inner hne).imp fun error herror => herror.widen hinside.1
  · intro placed hplaced hends
    exact .of_mem hplaced fun _ => hends
  · intro name position opening hsegment
    exact hpair _ name position opening hsegment fun _ hopen => ⟨rfl, hopen⟩
  · intro name position opening hsegment arity _
    exact hpair _ name position opening hsegment fun _ hopen => ⟨rfl, hopen⟩

theorem collapseGroups_pointsInto :
    Blames (ParseError.PointsInto settings tokens) (collapseGroups parse tokens) := by
  apply Blames.collapseGroups
  constructor
  · intro inner hne hinside
    exact (hparse inner hne).imp fun error herror => herror.widen hinside.1
  · exact fun placed hplaced hopen => .of_mem hplaced fun _ => hopen
  · exact fun placed hplaced hopen => .of_mem hplaced fun _ => hopen
  · exact fun placed hplaced hclose => .of_mem hplaced fun _ => hclose

end Passes

namespace Settings

variable {settings : Settings} {tokens : List Placed}

theorem arrange_pointsInto (settings : Settings) (hne : tokens ≠ [])
    (hfree : ∀ placed ∈ tokens, placed.token ≠ .openParen ∧ placed.token ≠ .closeParen) :
    Blames (ParseError.PointsInto settings tokens) (settings.arrange tokens) := by
  refine Blames.arrange hne ?_ ?_ ?_
  · exact fun placed hplaced hcomma => .of_mem hplaced fun _ => hcomma
  · intro placed hplaced hroot
    refine .of_mem hplaced fun _ himplicit => ?_
    obtain ⟨hvalue, hcomma⟩ := hroot himplicit
    obtain ⟨hopen, hclose⟩ := hfree placed hplaced
    exact Token.isOperator_of_ne hvalue hopen hclose hcomma
  · exact fun placed hplaced depth => .of_mem hplaced fun _ => trivial

theorem parseWithin_pointsInto {room depth : Nat} (hne : tokens ≠ []) :
    Blames (ParseError.PointsInto settings tokens) (settings.parseWithin room depth tokens) := by
  induction room generalizing depth tokens with
  | zero =>
      obtain ⟨first, rest, rfl⟩ := List.exists_cons_of_ne_nil hne
      exact .error (.of_mem List.mem_cons_self fun _ => trivial)
  | succ room ih =>
      obtain ⟨first, rest, rfl⟩ := List.exists_cons_of_ne_nil hne
      have hinner : ∀ inner, inner ≠ [] → Blames (ParseError.PointsInto settings inner)
          (settings.parseWithin room (depth + 1) inner) := fun inner hinner => ih hinner
      rw [parseWithin_cons]
      apply (collapseCalls_pointsInto hinner).bind
      intro short hshort
      have hcalls := collapseCalls_eq_ok_iff.1 hshort
      have hstands : ∀ error, ParseError.PointsInto settings short error →
          ParseError.PointsInto settings (first :: rest) error :=
        fun error herror => herror.of_stands (fun _ => hcalls.stands) hcalls.callFree
      apply ((collapseGroups_pointsInto hinner).imp hstands).bind
      intro flat hflat
      have hgroups := collapseGroups_eq_ok_iff.1 hflat
      have hflatNe : flat ≠ [] := ne_nil_of_collapses hne hcalls hgroups
      have harrange := settings.arrange_pointsInto hflatNe hgroups.parenFree
      exact harrange.imp fun error herror =>
        hstands error (herror.of_stands (fun _ => hgroups.stands) hgroups.openFree.callFree)

end Settings

/-- Every fault of the parser is found at a token of the kind that it is about, and so inside of
the source.  No fault is found where a token is missing: what has been resolved is assembled, if
a limit lets it. -/
theorem parseTokens_error_pointsInto (settings : Settings) :
    (∀ tokens error, tokens ≠ [] → settings.parseTokens tokens = .error error →
      error.fault ≠ .emptyExpression ∧ error.PointsInto settings tokens) ∧
    (∀ format source tokens error, tokenize format source = .ok tokens → tokens ≠ [] →
      settings.parseTokens tokens = .error error → error.position < source.length) ∧
    ∀ tokens resolution, resolve tokens = .ok resolution → ∀ maxHeight position,
      resolution.assemble maxHeight tokens ≠ .error ⟨.noRootOperation, position⟩ := by
  have hpoints : ∀ tokens error, tokens ≠ [] → settings.parseTokens tokens = .error error →
      error.PointsInto settings tokens :=
    fun tokens error hne => Settings.parseWithin_pointsInto hne error
  refine ⟨?_, ?_, ?_⟩
  · intro tokens error hne herror
    have hpoint := hpoints tokens error hne herror
    refine ⟨fun hempty => ?_, hpoint⟩
    obtain ⟨_, _, _, _, _, hmarks⟩ := hpoint
    rw [hempty] at hmarks
    exact hmarks
  · intro format source tokens error htokenize hne herror
    have hmunches := NumberFormat.munch_eq_some_iff.1 (munch_of_tokenize htokenize)
    obtain ⟨placed, hplaced, hposition⟩ := (hpoints tokens error hne herror).exists_position
    have hinside := (hmunches.position_of_mem placed hplaced).2
    rwa [Nat.zero_add, String.length_toList, hposition] at hinside
  · intro tokens resolution hresolve maxHeight position herror
    have hblames : Blames (fun error => error.fault ≠ .noRootOperation)
        (resolution.assemble maxHeight tokens) :=
      Resolution.assemble_blames hresolve fun _ _ _ => nofun
    exact hblames _ herror rfl

/-- The tokens of `x * abs()`. -/
def emptyAbs : List Placed :=
  [⟨.identifier "x", 0⟩, ⟨.star, 2⟩, ⟨.identifier "abs", 4⟩, ⟨.openParen, 7⟩, ⟨.closeParen, 8⟩]

theorem parseTokens_emptyAbs :
    Settings.standard.parseTokens emptyAbs = .error ⟨.emptyArgument, 8⟩ := by
  have hsplit : splitArguments 0 [] [⟨.closeParen, 8⟩] = ([⟨[], 8⟩], some []) := rfl
  rw [Settings.parseTokens, emptyAbs, Settings.parseNested_of_le (Nat.zero_le _),
    collapseCalls_keep (by simp [startsOpen, Token.isOpen]),
    collapseCalls_keep (by simp [Token.isName]), collapseCalls_call hsplit]
  rfl

theorem parseTokens_error_pointsInto_emptyAbs :
    ParseError.PointsInto .standard emptyAbs ⟨.emptyArgument, 8⟩ ∧ 8 < "x * abs()".length ∧
      ∃ resolution, resolve [⟨.identifier "x", 0⟩] = .ok resolution ∧ ∀ position,
        resolution.assemble 1 [⟨.identifier "x", 0⟩] ≠ .error ⟨.noRootOperation, position⟩ := by
  obtain ⟨hpoints, hinside, hassembles⟩ := parseTokens_error_pointsInto Settings.standard
  have hne : emptyAbs ≠ [] := List.cons_ne_nil _ _
  have htokenize : tokenize ⟨'.'⟩ "x * abs()" = .ok emptyAbs := rfl
  have hrow : Row (.single (.var "x")) [⟨.identifier "x", 0⟩] := .single (.value rfl)
  obtain ⟨resolution, _, hresolve, _⟩ := hrow.resolve
  refine ⟨(hpoints _ _ hne parseTokens_emptyAbs).2, ?_, resolution, hresolve, ?_⟩
  · exact hinside _ _ _ _ htokenize hne parseTokens_emptyAbs
  · exact hassembles _ _ hresolve 1

end Formula
