/-
Products without a star are products with one.  Writing the stars into a formula before it
is parsed gives the same result as letting the parser put them in: the parser cuts and
collapses the formula in between, and a star that is written stands where the parser puts
it afterwards.
-/
import Formula.Proofs.Parsing

namespace Formula

namespace Token

/-- Tokens that a value ends with. -/
def endsValue : Token → Bool
  | number _ | identifier _ | call _ | group _ | closeParen => true
  | _ => false

/-- Tokens that a value starts with. -/
def startsValue : Token → Bool
  | number _ | identifier _ | call _ | group _ | openParen => true
  | _ => false

/-- Whether a token multiplies the one behind it: a name in front of a parenthesis calls a
function. -/
def multiplies (left right : Token) : Bool :=
  left.endsValue && right.startsValue && !(left.isName && right.isOpen)

end Token

/-- Writes the stars that a formula leaves out, at the position of the right factor. -/
def writeStars : List Placed → List Placed
  | left :: right :: rest =>
      if left.token.multiplies right.token then
        left :: ⟨.star, right.position⟩ :: writeStars (right :: rest)
      else left :: writeStars (right :: rest)
  | tokens => tokens

/-- The star that is written behind a token, by the token that follows. -/
def starWritten (left : Token) : Option Placed → List Placed
  | some right => if left.multiplies right.token then [⟨.star, right.position⟩] else []
  | none => []

theorem writeStars_nil : writeStars [] = [] := rfl

theorem writeStars_cons (first : Placed) (rest : List Placed) :
    writeStars (first :: rest) =
      first :: (starWritten first.token rest.head? ++ writeStars rest) := by
  cases rest with
  | nil => rfl
  | cons next rest =>
      rw [writeStars, List.head?_cons, starWritten]
      split <;> rfl

theorem isEmpty_writeStars (tokens : List Placed) :
    (writeStars tokens).isEmpty = tokens.isEmpty := by
  cases tokens with
  | nil => rfl
  | cons first rest => rw [writeStars_cons, List.isEmpty_cons, List.isEmpty_cons]

theorem startsOpen_writeStars (tokens : List Placed) :
    startsOpen (writeStars tokens) = startsOpen tokens := by
  cases tokens with
  | nil => rfl
  | cons first rest => rw [writeStars_cons]; rfl

theorem starWritten_of_not_ends {left : Token} (h : left.endsValue = false)
    (next : Option Placed) : starWritten left next = [] := by
  cases next <;> simp [starWritten, Token.multiplies, h]

theorem starWritten_of_not_starts (left : Token) {right : Placed}
    (h : right.token.startsValue = false) : starWritten left (some right) = [] := by
  simp [starWritten, Token.multiplies, h]

/-! Splitting. -/

/-- The gathered tokens with the stars between them and the token that follows, as they are
gathered: from the last one to the first one. -/
def starsGathered (next : Option Placed) : List Placed → List Placed
  | [] => []
  | last :: before => (starWritten last.token next).reverse ++ last :: starsGathered (some last) before

theorem writeStars_append (current tokens : List Placed) :
    writeStars (current.reverse ++ tokens) =
      (starsGathered tokens.head? current).reverse ++ writeStars tokens := by
  induction current generalizing tokens with
  | nil => rfl
  | cons last before ih =>
      have hlast := ih (last :: tokens)
      rw [List.reverse_cons, List.append_assoc, List.singleton_append, hlast, writeStars_cons,
        starsGathered]
      simp

/-- What has been gathered when a token comes that starts no value. -/
theorem reverse_starsGathered (current : List Placed) {next : Placed}
    (h : next.token.startsValue = false) :
    (starsGathered (some next) current).reverse = writeStars current.reverse := by
  have hend := writeStars_append current []
  rw [List.append_nil] at hend
  rw [hend]
  cases current with
  | nil => rfl
  | cons last before =>
      rw [starsGathered, starsGathered, starWritten_of_not_starts last.token h]
      simp [starWritten, writeStars]

theorem starWritten_cases (left : Token) (next : Option Placed) :
    starWritten left next = [] ∨ ∃ position, starWritten left next = [⟨.star, position⟩] := by
  unfold starWritten
  split
  · split
    · exact .inr ⟨_, rfl⟩
    · exact .inl rfl
  · exact .inl rfl

theorem skipped_starWritten (left : Token) (next : Option Placed) :
    Skipped 0 (starWritten left next) := by
  unfold starWritten
  split
  · split
    · exact .operator rfl
    · exact .nil
  · exact .nil

/-- What stands behind a closing parenthesis. -/
def starsBehind (after : List Placed) : List Placed :=
  starWritten .closeParen after.head? ++ writeStars after

theorem splitGroup_writeStars (depth : Nat) (current tokens : List Placed) :
    splitGroup depth (starsGathered tokens.head? current) (writeStars tokens) =
      (splitGroup depth current tokens).map fun found =>
        (writeStars found.1, starsBehind found.2) := by
  induction tokens generalizing depth current with
  | nil => rfl
  | cons placed rest ih =>
      rw [writeStars_cons, List.head?_cons, splitGroup_cons, splitGroup_cons]
      cases hdepth : openAfter depth placed.token with
      | none =>
          have hclose : placed.token = .closeParen := eq_of_openAfter_eq_none hdepth
          have hstarts : placed.token.startsValue = false := by rw [hclose]; rfl
          simp [reverse_starsGathered current hstarts, starsBehind, hclose]
      | some inner =>
          dsimp only
          rw [(skipped_starWritten placed.token rest.head?).group]
          exact ih inner (placed :: current)

theorem splitArguments_writeStars (depth : Nat) (current tokens : List Placed) :
    splitArguments depth (starsGathered tokens.head? current) (writeStars tokens) =
      ((splitArguments depth current tokens).1.map fun span => ⟨writeStars span.tokens, span.stop⟩,
        (splitArguments depth current tokens).2.map starsBehind) := by
  induction tokens generalizing depth current with
  | nil => rfl
  | cons placed rest ih =>
      rw [writeStars_cons, List.head?_cons, splitArguments_cons, splitArguments_cons]
      cases hdepth : openAfter depth placed.token with
      | none =>
          have hclose : placed.token = .closeParen := eq_of_openAfter_eq_none hdepth
          have hstarts : placed.token.startsValue = false := by rw [hclose]; rfl
          simp [reverse_starsGathered current hstarts, starsBehind, hclose]
      | some inner =>
          dsimp only
          by_cases hstops : (placed.token.isComma && depth == 0) = true
          · have hcomma : placed.token = .comma :=
              Token.eq_comma_of_isComma (Bool.and_eq_true_iff.1 hstops).1
            have hstarts : placed.token.startsValue = false := by rw [hcomma]; rfl
            have hends : placed.token.endsValue = false := by rw [hcomma]; rfl
            have hrest := ih 0 []
            rw [starsGathered] at hrest
            rw [if_pos hstops, if_pos hstops, starWritten_of_not_ends hends, List.nil_append, hrest,
              reverse_starsGathered current hstarts]
            rfl
          · rw [if_neg hstops, if_neg hstops,
              (skipped_starWritten placed.token rest.head?).arguments _ _ _ (Nat.zero_le _)]
            exact ih inner (placed :: current)

/-- The group at the front of a list, and the same group with the stars written. -/
theorem splitGroup_written {tokens : List Placed} {found? : Option (List Placed × List Placed)}
    (h : splitGroup 0 [] tokens = found?) :
    splitGroup 0 [] (writeStars tokens) =
      found?.map fun found => (writeStars found.1, starsBehind found.2) := by
  rw [← h]
  exact splitGroup_writeStars 0 [] tokens

theorem splitArguments_written {tokens : List Placed} {spans : List Span}
    {after? : Option (List Placed)} (h : splitArguments 0 [] tokens = (spans, after?)) :
    splitArguments 0 [] (writeStars tokens) =
      (spans.map fun span => ⟨writeStars span.tokens, span.stop⟩, after?.map starsBehind) := by
  have hwritten := splitArguments_writeStars 0 [] tokens
  rwa [starsGathered, h] at hwritten

/-! Collapsing. -/

/-- The position of the factor that tokens start with. -/
def factor? (tokens : List Placed) : Option Nat :=
  (tokens.head?.filter (·.token.startsValue)).map Placed.position

/-- Unless a call is opened, only the factor matters that comes next. -/
theorem starWritten_eq {left : Token} {rest : List Placed}
    (hseam : ¬ (left.isName ∧ startsOpen rest)) :
    starWritten left rest.head? =
      if left.endsValue then (factor? rest).toList.map (⟨.star, ·⟩) else [] := by
  cases rest with
  | nil => simp [starWritten, factor?]
  | cons next rest =>
      have hno : (left.isName && next.token.isOpen) = false := by
        rw [Bool.eq_false_iff]
        intro hboth
        exact hseam (Bool.and_eq_true_iff.1 hboth)
      by_cases hstarts : next.token.startsValue = true
      · simp [starWritten, factor?, Option.filter, Token.multiplies, hno, hstarts]
      · simp [starWritten, factor?, Option.filter, Token.multiplies, hstarts]

section Passes

variable {parse other : InnerParser} {settings otherSettings : Settings}
  {tokens short : List Placed}

theorem CallsCollapse.factor?_eq (h : CallsCollapse parse settings tokens short) :
    factor? tokens = factor? short := by
  cases h <;> rfl

theorem GroupsCollapse.factor?_eq (h : GroupsCollapse parse tokens short) :
    factor? tokens = factor? short := by
  cases h <;> rfl

/-- What is kept is followed by the same star when what follows has collapsed. -/
theorem writeStars_keep {placed : Placed} (hfactor : factor? tokens = factor? short)
    (hseam : ¬ (placed.token.isName ∧ startsOpen tokens))
    (hshort : ¬ (placed.token.isName ∧ startsOpen short)) :
    writeStars (placed :: short) =
      placed :: (starWritten placed.token tokens.head? ++ writeStars short) := by
  rw [writeStars_cons, starWritten_eq hseam, starWritten_eq hshort, hfactor]

/-- What stands for parentheses is followed by the star that the closing one is followed
by. -/
theorem writeStars_value {placed : Placed} (hfactor : factor? tokens = factor? short)
    (hends : placed.token.endsValue = true) (hname : placed.token.isName = false) :
    writeStars (placed :: short) =
      placed :: (starWritten .closeParen tokens.head? ++ writeStars short) := by
  have hclose : ¬ (Token.isName .closeParen ∧ startsOpen tokens) := fun hseam => by cases hseam.1
  have hplaced : ¬ (placed.token.isName ∧ startsOpen short) := fun hseam => by
    rw [hname] at hseam
    cases hseam.1
  rw [writeStars_cons, starWritten_eq hclose, starWritten_eq hplaced, hfactor, hends]
  rfl

theorem parseArgument_writeStars (hparse : ∀ inner, other (writeStars inner) = parse inner)
    (span : Span) :
    parseArgument other ⟨writeStars span.tokens, span.stop⟩ = parseArgument parse span := by
  rw [parseArgument, parseArgument, isEmpty_writeStars, hparse]

theorem mapM_writeStars (hparse : ∀ inner, other (writeStars inner) = parse inner)
    (spans : List Span) :
    (spans.map fun span => ⟨writeStars span.tokens, span.stop⟩).mapM (parseArgument other) =
      spans.mapM (parseArgument parse) := by
  rw [List.mapM_map]
  exact congrArg (spans.mapM ·) (funext (parseArgument_writeStars hparse))

theorem writeStars_open (opening : Nat) (rest : List Placed) :
    writeStars (⟨.openParen, opening⟩ :: rest) = ⟨.openParen, opening⟩ :: writeStars rest := by
  have hopening : starWritten .openParen rest.head? = [] := starWritten_of_not_ends rfl _
  rw [writeStars_cons, hopening, List.nil_append]

theorem writeStars_call (name : String) (position opening : Nat) (rest : List Placed) :
    writeStars (⟨.identifier name, position⟩ :: ⟨.openParen, opening⟩ :: rest) =
      ⟨.identifier name, position⟩ :: ⟨.openParen, opening⟩ :: writeStars rest := by
  rw [writeStars_cons, writeStars_open]
  rfl

theorem collapseCalls_stars (left : Token) (next : Option Placed) (rest : List Placed) :
    collapseCalls parse settings (starWritten left next ++ rest) =
      (starWritten left next ++ ·) <$> collapseCalls parse settings rest := by
  rcases starWritten_cases left next with hnone | ⟨position, hstar⟩
  · rw [hnone, List.nil_append]
    cases collapseCalls parse settings rest <;> rfl
  · have hseam : ¬ (Token.isName .star ∧ startsOpen rest) := fun hboth => by cases hboth.1
    rw [hstar, List.singleton_append, collapseCalls_keep hseam]
    cases collapseCalls parse settings rest <;> rfl

theorem not_startsOpen_stars {placed : Placed} {rest : List Placed}
    (hseam : ¬ (placed.token.isName ∧ startsOpen rest)) (left : Token) (next : Option Placed) :
    ¬ (placed.token.isName ∧ startsOpen (starWritten left next ++ writeStars rest)) := by
  rcases starWritten_cases left next with hnone | ⟨position, hstar⟩
  · rwa [hnone, List.nil_append, startsOpen_writeStars]
  · rw [hstar]
    exact fun hboth => by cases hboth.2

/-- Calls are found and read alike among tokens with their stars written. -/
theorem collapseCalls_writeStars
    (hparse : ∀ inner, other (writeStars inner) = parse inner)
    (hbinds : ∀ name position arguments,
      bindCall otherSettings name position arguments = bindCall settings name position arguments)
    (tokens : List Placed) :
    collapseCalls other otherSettings (writeStars tokens) =
      writeStars <$> collapseCalls parse settings tokens := by
  induction tokens using calls_induction with
  | nil =>
      rw [writeStars_nil, collapseCalls_nil, collapseCalls_nil]
      rfl
  | call name position opening rest spans after hsplit ih =>
      rw [collapseCalls_call hsplit, writeStars_call,
        collapseCalls_call (splitArguments_written hsplit), mapM_writeStars hparse, map_bind]
      apply bind_congr
      intro arguments
      rw [hbinds, map_bind]
      cases hbound : bindCall settings name position arguments with
      | error error => rfl
      | ok call =>
          obtain ⟨function, _, rfl⟩ := bindCall_eq_ok_iff.1 hbound
          change (collapseCalls other otherSettings (starsBehind after) >>= _) = _ <$> (_ >>= _)
          rw [starsBehind, collapseCalls_stars, ih]
          cases hshort : collapseCalls parse settings after with
          | error error => rfl
          | ok short =>
              have hcalls := collapseCalls_eq_ok_iff.1 hshort
              have hvalue := @writeStars_value _ _ ⟨.call (function.call arguments), position⟩
                hcalls.factor?_eq rfl rfl
              exact congrArg Except.ok hvalue.symm
  | unclosed name position opening rest spans hsplit =>
      rw [collapseCalls_unclosed hsplit, writeStars_call,
        collapseCalls_unclosed (splitArguments_written hsplit), mapM_writeStars hparse]
      cases spans.mapM (parseArgument parse) <;> rfl
  | keep placed rest hseam ih =>
      rw [writeStars_cons, collapseCalls_keep (not_startsOpen_stars hseam _ _),
        collapseCalls_keep hseam, collapseCalls_stars, ih]
      cases hshort : collapseCalls parse settings rest with
      | error error => rfl
      | ok short =>
          have hcalls := collapseCalls_eq_ok_iff.1 hshort
          have hkept := writeStars_keep hcalls.factor?_eq hseam fun hboth =>
            hseam ⟨hboth.1, hcalls.startsOpen_imp hboth.2⟩
          exact congrArg Except.ok hkept.symm

theorem collapseGroups_stars (left : Token) (next : Option Placed) (rest : List Placed) :
    collapseGroups parse (starWritten left next ++ rest) =
      (starWritten left next ++ ·) <$> collapseGroups parse rest := by
  rcases starWritten_cases left next with hnone | ⟨position, hstar⟩
  · rw [hnone, List.nil_append]
    cases collapseGroups parse rest <;> rfl
  · have hopen : Token.star ≠ .openParen := fun heq => by cases heq
    have hclose : Token.star ≠ .closeParen := fun heq => by cases heq
    rw [hstar, List.singleton_append, collapseGroups_keep hopen hclose]
    cases collapseGroups parse rest <;> rfl

/-- Groups are found and read alike among tokens with their stars written, once calls are
gone. -/
theorem collapseGroups_writeStars (hparse : ∀ inner, other (writeStars inner) = parse inner)
    (hfree : CallFree tokens) :
    collapseGroups other (writeStars tokens) = writeStars <$> collapseGroups parse tokens := by
  induction tokens using groups_induction with
  | nil =>
      rw [writeStars_nil, collapseGroups_nil, collapseGroups_nil]
      rfl
  | empty opening rest after hsplit =>
      rw [writeStars_open, collapseGroups_empty (splitGroup_written hsplit),
        collapseGroups_empty hsplit]
      rfl
  | group opening rest inner after hsplit hne ih =>
      obtain ⟨closing, hrest⟩ := exists_closing hsplit
      have hafter : CallFree after := by
        apply hfree.segment
        rw [hrest]
        exact segment_behind (_ :: inner) _ after
      have hinner : writeStars inner ≠ [] := by
        rwa [ne_eq, ← List.isEmpty_iff, isEmpty_writeStars, List.isEmpty_iff]
      rw [writeStars_open, collapseGroups_group (splitGroup_written hsplit) hinner,
        collapseGroups_group hsplit hne, hparse, map_bind]
      apply bind_congr
      intro tree
      rw [starsBehind, collapseGroups_stars, ih hafter]
      cases hshort : collapseGroups parse after with
      | error error => rfl
      | ok short =>
          have hgroups := collapseGroups_eq_ok_iff.1 hshort
          have hvalue := @writeStars_value _ _ ⟨.group tree, opening⟩ hgroups.factor?_eq rfl rfl
          exact congrArg Except.ok hvalue.symm
  | unclosed opening rest hsplit =>
      rw [writeStars_open, collapseGroups_unclosed (splitGroup_written hsplit),
        collapseGroups_unclosed hsplit]
      rfl
  | unmatched closing rest =>
      rw [writeStars_cons, collapseGroups_unmatched, collapseGroups_unmatched]
      rfl
  | keep placed rest hopen hclose ih =>
      rw [writeStars_cons, collapseGroups_keep hopen hclose, collapseGroups_keep hopen hclose,
        collapseGroups_stars, ih hfree.tail]
      cases hshort : collapseGroups parse rest with
      | error error => rfl
      | ok short =>
          have hgroups := collapseGroups_eq_ok_iff.1 hshort
          have hkept := writeStars_keep hgroups.factor?_eq hfree.seam fun hboth => by
            rw [not_startsOpen_of_openFree hgroups.openFree] at hboth
            cases hboth.2
          exact congrArg Except.ok hkept.symm

end Passes

/-! Arranging. -/

/-- A token that is no parenthesis multiplies another one if both stand for values. -/
theorem Token.multiplies_eq {left right : Token} (hleft : left ≠ .closeParen)
    (hright : right ≠ .openParen) : left.multiplies right = (left.isValue && right.isValue) := by
  have hends : left.endsValue = left.isValue := by
    cases left <;> first | rfl | exact absurd rfl hleft
  have hstarts : right.startsValue = right.isValue := by
    cases right <;> first | rfl | exact absurd rfl hright
  have hopen : right.isOpen = false := by
    cases right <;> first | rfl | exact absurd rfl hright
  simp [multiplies, hends, hstarts, hopen]

/-- Where no parentheses are left, stars are written where the parser puts them. -/
theorem writeStars_eq_insertStars {tokens : List Placed}
    (h : ∀ placed ∈ tokens, placed.token ≠ .openParen ∧ placed.token ≠ .closeParen) :
    writeStars tokens = insertStars tokens := by
  induction tokens with
  | nil => rfl
  | cons first rest ih =>
      have hrest := ih fun placed hplaced => h placed (List.mem_cons_of_mem _ hplaced)
      rw [writeStars_cons, insertStars_cons, hrest]
      cases rest with
      | nil => rfl
      | cons next rest =>
          obtain ⟨_, hfirst⟩ := h first List.mem_cons_self
          obtain ⟨hnext, _⟩ := h next (List.mem_cons_of_mem _ List.mem_cons_self)
          have hstar : starWritten first.token (some next) = starBetween first (some next) := by
            rw [starWritten, Token.multiplies_eq hfirst hnext]
            rfl
          rw [List.head?_cons, hstar]

namespace Settings

theorem arrange_writeStars (settings : Settings) {tokens : List Placed}
    (h : ∀ placed ∈ tokens, placed.token ≠ .openParen ∧ placed.token ≠ .closeParen) :
    { settings with implicitProducts := false }.arrange (writeStars tokens) =
      { settings with implicitProducts := true }.arrange tokens := by
  rw [writeStars_eq_insertStars h]
  rfl

/-- Stars that are written are as good as stars that the parser puts in, whatever room and
depth there is. -/
theorem parseWithin_writeStars (settings : Settings) (room depth : Nat) (tokens : List Placed) :
    { settings with implicitProducts := false }.parseWithin room depth (writeStars tokens) =
      { settings with implicitProducts := true }.parseWithin room depth tokens := by
  induction room generalizing depth tokens with
  | zero =>
      cases tokens with
      | nil => rw [writeStars_nil, parseWithin_nil, parseWithin_nil]
      | cons first rest =>
          rw [writeStars_cons]
          rfl
  | succ room ih =>
      cases tokens with
      | nil => rw [writeStars_nil, parseWithin_nil, parseWithin_nil]
      | cons first rest =>
          have hbinds : ∀ name position arguments,
              bindCall { settings with implicitProducts := false } name position arguments =
                bindCall { settings with implicitProducts := true } name position arguments :=
            fun name position arguments => rfl
          have hcalls := collapseCalls_writeStars (ih (depth + 1)) hbinds (first :: rest)
          rw [writeStars_cons, parseWithin_cons, ← writeStars_cons, hcalls, parseWithin_cons]
          cases hshort : collapseCalls
              ({ settings with implicitProducts := true }.parseWithin room (depth + 1))
              { settings with implicitProducts := true } (first :: rest) with
          | error error => rfl
          | ok short =>
              have hfree := (collapseCalls_eq_ok_iff.1 hshort).callFree
              have hgroups := collapseGroups_writeStars (ih (depth + 1)) hfree
              change (collapseGroups _ (writeStars short) >>= _) = (collapseGroups _ short >>= _)
              rw [hgroups]
              cases hflat : collapseGroups
                  ({ settings with implicitProducts := true }.parseWithin room (depth + 1)) short with
              | error error => rfl
              | ok flat =>
                  exact settings.arrange_writeStars (collapseGroups_eq_ok_iff.1 hflat).parenFree

end Settings

/-- Leaving stars out is the same as writing them, for every list of tokens and at every
depth: the same tree comes out of it, or the same fault at the same position. -/
theorem parseTokens_writeStars (settings : Settings) (tokens : List Placed) :
    { settings with implicitProducts := true }.parseTokens tokens =
        { settings with implicitProducts := false }.parseTokens (writeStars tokens) ∧
      ∀ depth, { settings with implicitProducts := true }.parseNested depth tokens =
        { settings with implicitProducts := false }.parseNested depth (writeStars tokens) := by
  constructor
  · exact (settings.parseWithin_writeStars _ 0 tokens).symm
  · intro depth
    exact (settings.parseWithin_writeStars _ depth tokens).symm

/-- The stars of `2x(3)(4)`; the name does not call a function with a star behind it. -/
example : writeStars [⟨.number 2, 0⟩, ⟨.identifier "x", 1⟩, ⟨.openParen, 2⟩, ⟨.number 3, 3⟩,
      ⟨.closeParen, 4⟩, ⟨.openParen, 5⟩, ⟨.number 4, 6⟩, ⟨.closeParen, 7⟩] =
    [⟨.number 2, 0⟩, ⟨.star, 1⟩, ⟨.identifier "x", 1⟩, ⟨.openParen, 2⟩, ⟨.number 3, 3⟩,
      ⟨.closeParen, 4⟩, ⟨.star, 5⟩, ⟨.openParen, 5⟩, ⟨.number 4, 6⟩, ⟨.closeParen, 7⟩] := rfl

end Formula
