/-
Tokens in other places.  The parser hands positions on and reports them, and looks at none of
them: tokens that have been moved are parsed to the same tree, or fail with the same fault at
the place where its token has been moved to.
-/
import Formula.Proofs.Refusal

namespace Formula

def Placed.moved (move : Nat → Nat) (placed : Placed) : Placed :=
  { placed with position := move placed.position }

def Span.moved (move : Nat → Nat) (span : Span) : Span :=
  ⟨span.tokens.map (Placed.moved move), move span.stop⟩

/-- A fault at another place.  That there are no tokens is no fault of any of them, and is found
at the start wherever they are. -/
def ParseError.moved (move : Nat → Nat) : ParseError → ParseError
  | ⟨.emptyExpression, _⟩ => ⟨.emptyExpression, 0⟩
  | ⟨fault, position⟩ => ⟨fault, move position⟩

/-- What becomes of an outcome where tokens are moved: its value changes with them. -/
def relocate {α β : Type} (move : Nat → Nat) (change : α → β) :
    Except ParseError α → Except ParseError β
  | .error error => .error (error.moved move)
  | .ok value => .ok (change value)

section Relocate

variable {α β γ δ : Type} {move : Nat → Nat}

theorem relocate_id (outcome : Except ParseError α) :
    relocate move id outcome = outcome.mapError (ParseError.moved move) := by
  cases outcome <;> rfl

theorem relocate_bind {first : Except ParseError α} {other : Except ParseError β}
    {next : α → Except ParseError γ} {later : β → Except ParseError δ} {change : α → β}
    {result : γ → δ} (hfirst : other = relocate move change first)
    (hnext : ∀ value, first = .ok value →
      later (change value) = relocate move result (next value)) :
    (other >>= later) = relocate move result (first >>= next) := by
  subst hfirst
  cases first with
  | error error => rfl
  | ok value => exact hnext value rfl

theorem relocate_mapM {inputs : List α} {step : α → Except ParseError β}
    {later : γ → Except ParseError β} {change : α → γ}
    (hstep : ∀ input, later (change input) = relocate move id (step input)) :
    (inputs.map change).mapM later = relocate move id (inputs.mapM step) := by
  induction inputs with
  | nil => rfl
  | cons input inputs ih =>
      rw [List.map_cons, List.mapM_cons, List.mapM_cons]
      apply relocate_bind (hstep input)
      intro result _
      apply relocate_bind ih
      intro results _
      rfl

end Relocate

section Collapsing

variable {parse : InnerParser} {settings : Settings} {move : Nat → Nat}

theorem splitArguments_moved (move : Nat → Nat) (depth : Nat) (current tokens : List Placed) :
    splitArguments depth (current.map (Placed.moved move)) (tokens.map (Placed.moved move)) =
      ((splitArguments depth current tokens).1.map (Span.moved move),
        (splitArguments depth current tokens).2.map (List.map (Placed.moved move))) := by
  induction tokens generalizing depth current with
  | nil => rfl
  | cons placed rest ih =>
      have htoken : (placed.moved move).token = placed.token := rfl
      rw [List.map_cons, splitArguments_cons, splitArguments_cons, htoken]
      cases openAfter depth placed.token with
      | none =>
          rw [← List.map_reverse]
          rfl
      | some inner =>
          dsimp only
          split
          · have hrest := ih 0 []
            rw [List.map_nil] at hrest
            rw [hrest, ← List.map_reverse]
            rfl
          · exact ih inner (placed :: current)

theorem splitGroup_moved (move : Nat → Nat) (depth : Nat) (current tokens : List Placed) :
    splitGroup depth (current.map (Placed.moved move)) (tokens.map (Placed.moved move)) =
      (splitGroup depth current tokens).map
        (Prod.map (List.map (Placed.moved move)) (List.map (Placed.moved move))) := by
  induction tokens generalizing depth current with
  | nil => rfl
  | cons placed rest ih =>
      have htoken : (placed.moved move).token = placed.token := rfl
      rw [List.map_cons, splitGroup_cons, splitGroup_cons, htoken]
      cases openAfter depth placed.token with
      | none =>
          rw [← List.map_reverse]
          rfl
      | some inner => exact ih inner (placed :: current)

theorem startsOpen_moved (tokens : List Placed) :
    startsOpen (tokens.map (Placed.moved move)) = startsOpen tokens := by
  cases tokens <;> rfl

theorem bindCall_moved (name : String) (position : Nat) (arguments : List Expr) :
    bindCall settings name (move position) arguments =
      relocate move (Placed.moved move) (bindCall settings name position arguments) := by
  unfold bindCall
  cases settings.function? name arguments.length <;> rfl

variable (hparse : ∀ tokens,
  parse (tokens.map (Placed.moved move)) = relocate move id (parse tokens))

include hparse

theorem parseArgument_moved (span : Span) :
    parseArgument parse (span.moved move) = relocate move id (parseArgument parse span) := by
  have hempty : (span.moved move).tokens.isEmpty = span.tokens.isEmpty := by
    simp [Span.moved]
  unfold parseArgument
  rw [hempty]
  split
  · rfl
  · exact hparse span.tokens

theorem collapseCalls_moved (tokens : List Placed) :
    collapseCalls parse settings (tokens.map (Placed.moved move)) =
      relocate move (List.map (Placed.moved move)) (collapseCalls parse settings tokens) := by
  induction tokens using calls_induction with
  | nil =>
      rw [List.map_nil, collapseCalls_nil]
      rfl
  | call name position opening rest spans after hsplit ih =>
      have hmoved := splitArguments_moved move 0 [] rest
      rw [hsplit] at hmoved
      rw [collapseCalls_call hsplit]
      refine (collapseCalls_call hmoved).trans ?_
      apply relocate_bind (relocate_mapM (parseArgument_moved hparse))
      intro arguments _
      apply relocate_bind (bindCall_moved name position arguments)
      intro call _
      apply relocate_bind ih
      intro short _
      rfl
  | unclosed name position opening rest spans hsplit =>
      have hmoved := splitArguments_moved move 0 [] rest
      rw [hsplit] at hmoved
      rw [collapseCalls_unclosed hsplit]
      refine (collapseCalls_unclosed hmoved).trans ?_
      apply relocate_bind (relocate_mapM (parseArgument_moved hparse))
      intro arguments _
      rfl
  | keep placed rest hseam ih =>
      have hmoved : ¬ ((placed.moved move).token.isName ∧
          startsOpen (rest.map (Placed.moved move))) := by
        rwa [startsOpen_moved]
      rw [List.map_cons, collapseCalls_keep hmoved, collapseCalls_keep hseam]
      apply relocate_bind ih
      intro short _
      rfl

theorem collapseGroups_moved (tokens : List Placed) :
    collapseGroups parse (tokens.map (Placed.moved move)) =
      relocate move (List.map (Placed.moved move)) (collapseGroups parse tokens) := by
  induction tokens using groups_induction with
  | nil =>
      rw [List.map_nil, collapseGroups_nil]
      rfl
  | empty opening rest after hsplit =>
      have hmoved := splitGroup_moved move 0 [] rest
      rw [hsplit] at hmoved
      rw [collapseGroups_empty hsplit]
      exact collapseGroups_empty hmoved
  | group opening rest inner after hsplit hne ih =>
      have hmoved := splitGroup_moved move 0 [] rest
      rw [hsplit] at hmoved
      have hneMoved : inner.map (Placed.moved move) ≠ [] := by simpa using hne
      rw [collapseGroups_group hsplit hne]
      refine (collapseGroups_group hmoved hneMoved).trans ?_
      apply relocate_bind (hparse inner)
      intro tree _
      apply relocate_bind ih
      intro short _
      rfl
  | unclosed opening rest hsplit =>
      have hmoved := splitGroup_moved move 0 [] rest
      rw [hsplit] at hmoved
      rw [collapseGroups_unclosed hsplit]
      exact collapseGroups_unclosed hmoved
  | unmatched closing rest =>
      rw [collapseGroups_unmatched]
      exact collapseGroups_unmatched _ _
  | keep placed rest hopen hclose ih =>
      have hmoved : (placed.moved move).token = placed.token := rfl
      rw [List.map_cons, collapseGroups_keep (hmoved ▸ hopen) (hmoved ▸ hclose),
        collapseGroups_keep hopen hclose]
      apply relocate_bind ih
      intro short _
      rfl

end Collapsing

/-! Arranging. -/

section Arranging

variable {move : Nat → Nat} {tokens : List Placed}

theorem insertStars_moved (move : Nat → Nat) (tokens : List Placed) :
    insertStars (tokens.map (Placed.moved move)) =
      (insertStars tokens).map (Placed.moved move) := by
  induction tokens with
  | nil => rfl
  | cons first rest ih =>
      have hstar : starBetween (first.moved move) (rest.map (Placed.moved move)).head? =
          (starBetween first rest.head?).map (Placed.moved move) := by
        cases rest with
        | nil => rfl
        | cons next rest =>
            simp only [List.map_cons, List.head?_cons, starBetween]
            split
            · rename_i hvalues
              exact (if_pos hvalues).symm ▸ rfl
            · rename_i hvalues
              exact (if_neg hvalues).symm ▸ rfl
      rw [List.map_cons, insertStars_cons, insertStars_cons, hstar, ih, List.map_cons,
        List.map_append]

theorem Claims.accept_moved (claims : Claims) (index : Nat) (afterValue isLast : Bool)
    (placed : Placed) :
    claims.accept index afterValue isLast (placed.moved move) =
      relocate move id (claims.accept index afterValue isLast placed) := by
  obtain ⟨token, position⟩ := placed
  cases token with
  | number | identifier | call | group | comma => rfl
  | _ =>
      simp only [accept, Placed.moved]
      split <;> rfl

theorem Claims.acceptAll_moved (claims : Claims) (index : Nat) (afterValue : Bool)
    (tokens : List Placed) :
    claims.acceptAll index afterValue (tokens.map (Placed.moved move)) =
      relocate move id (claims.acceptAll index afterValue tokens) := by
  induction tokens generalizing claims index afterValue with
  | nil => rfl
  | cons placed rest ih =>
      have hlast : (rest.map (Placed.moved move)).isEmpty = rest.isEmpty := by simp
      rw [List.map_cons, acceptAll_cons, acceptAll_cons, hlast]
      apply relocate_bind (claims.accept_moved index afterValue _ placed)
      intro next _
      exact ih next (index + 1) placed.isValue

theorem positionAt_moved {index : Nat} (h : index < tokens.length) :
    positionAt (tokens.map (Placed.moved move)) index = move (positionAt tokens index) := by
  simp [positionAt, h, Placed.moved]

theorem resolve_moved (hne : tokens ≠ []) :
    resolve (tokens.map (Placed.moved move)) = relocate move id (resolve tokens) := by
  apply relocate_bind (Claims.acceptAll_moved {} 0 false tokens)
  intro claims _
  dsimp only [id]
  rw [List.length_map]
  split
  · rfl
  · rename_i extra rest hunclaimed
    have hextra : extra ∈ claims.unclaimed tokens.length := by simp [hunclaimed]
    rw [positionAt_moved (Claims.mem_unclaimed.1 hextra).1]
    rfl
  · rw [positionAt_moved (List.length_pos_iff.2 hne)]
    rfl

def Slots.moved (move : Nat → Nat) (slots : Slots) : Slots :=
  slots.map (Option.map (Placed.moved move))

theorem Slots.take?_moved (move : Nat → Nat) (slots : Slots) (index : Nat) :
    (slots.moved move).take? index =
      (slots.take? index).map (Prod.map (Placed.moved move) (Slots.moved move)) := by
  have hget : (slots.moved move)[index]? = slots[index]?.map (Option.map (Placed.moved move)) :=
    Array.getElem?_map
  unfold take?
  rw [hget]
  cases slots[index]? with
  | none => rfl
  | some slot =>
      cases slot with
      | none => rfl
      | some placed =>
          have hset : (slots.moved move).setIfInBounds index none =
              Slots.moved move (slots.setIfInBounds index none) := by
            simp [moved, Array.map_setIfInBounds]
          simp only [Option.map_some, hset]
          rfl

theorem Slots.ofTokens_moved (tokens : List Placed) :
    Slots.ofTokens (tokens.map (Placed.moved move)) = (Slots.ofTokens tokens).moved move := by
  simp [ofTokens, moved]

namespace Resolution

variable {resolution : Resolution}

/-- A tree is assembled alike wherever its tokens are, unless one of them is missing. -/
theorem assembleAt_moved {room level index : Nat} {slots : Slots}
    (hroot : Blames (fun error => error.fault ≠ .noRootOperation)
      (resolution.assembleAt room level index slots)) :
    resolution.assembleAt room level index (slots.moved move) =
      relocate move (Prod.map id (Slots.moved move))
        (resolution.assembleAt room level index slots) := by
  induction room, level, index, slots using assembly_induction with
  | missing room level index slots htake =>
      -- this fault is reported at no token, so it would stay where it is
      rw [assembleAt_none htake] at hroot
      exact absurd rfl (hroot _ rfl)
  | leaf room level index slots placed taken leaf htake htree =>
      have hmoved := slots.take?_moved move index
      rw [htake] at hmoved
      rw [assembleAt_leaf htake htree, assembleAt_leaf hmoved htree]
      split <;> rfl
  | full level index slots placed taken htake htree =>
      have hmoved := slots.take?_moved move index
      rw [htake] at hmoved
      rw [assembleAt_zero htake htree, assembleAt_zero hmoved htree]
      rfl
  | operator room level index slots placed taken htake htree ih =>
      have hmoved := slots.take?_moved move index
      rw [htake] at hmoved
      have htoken : (placed.moved move).token = placed.token := rfl
      rw [assembleAt_succ htake htree] at hroot ⊢
      rw [assembleAt_succ hmoved htree]
      rw [htoken]
      cases hnode : resolution.node? index placed.token with
      | none =>
          rw [hnode] at hroot
          exact absurd rfl (hroot _ rfl)
      | some node =>
          rw [hnode] at hroot
          cases node with
          | unary op operand =>
              apply relocate_bind (ih _ _ _ hroot.of_bind.1)
              intro found _
              rfl
          | binary op left right =>
              obtain ⟨hleft, hmore⟩ := hroot.of_bind
              apply relocate_bind (ih _ _ _ hleft)
              intro found hfound
              apply relocate_bind (ih _ _ _ (hmore found hfound).of_bind.1)
              intro next _
              rfl

theorem assemble_moved (hresolve : resolve tokens = .ok resolution) (maxHeight : Nat) :
    resolution.assemble maxHeight (tokens.map (Placed.moved move)) =
      relocate move id (resolution.assemble maxHeight tokens) := by
  have hroot : Blames (fun error => error.fault ≠ .noRootOperation)
      (resolution.assemble maxHeight tokens) := assemble_blames hresolve fun _ _ _ => nofun
  unfold assemble at hroot ⊢
  rw [Slots.ofTokens_moved]
  apply relocate_bind (assembleAt_moved hroot.of_bind.1)
  intro found _
  rfl

end Resolution

end Arranging

namespace Settings

variable {settings : Settings} {move : Nat → Nat}

theorem arrange_moved {tokens : List Placed} (hne : tokens ≠ []) :
    settings.arrange (tokens.map (Placed.moved move)) =
      relocate move id (settings.arrange tokens) := by
  have hstarred : settings.starred (tokens.map (Placed.moved move)) =
      (settings.starred tokens).map (Placed.moved move) := by
    unfold starred
    split
    · exact insertStars_moved move tokens
    · rfl
  rw [arrange_eq, arrange_eq, hstarred]
  apply relocate_bind (resolve_moved (starred_ne_nil hne))
  intro resolution hresolve
  exact Resolution.assemble_moved hresolve _

theorem parseWithin_moved (room depth : Nat) (tokens : List Placed) :
    settings.parseWithin room depth (tokens.map (Placed.moved move)) =
      relocate move id (settings.parseWithin room depth tokens) := by
  induction room generalizing depth tokens with
  | zero => cases tokens <;> rfl
  | succ room ih =>
      cases tokens with
      | nil => rfl
      | cons first rest =>
          have hne : first :: rest ≠ [] := List.cons_ne_nil _ _
          rw [parseWithin_cons]
          refine (settings.parseWithin_cons room depth _ _).trans ?_
          apply relocate_bind (collapseCalls_moved (ih (depth + 1)) (first :: rest))
          intro short hshort
          have hcalls := collapseCalls_eq_ok_iff.1 hshort
          apply relocate_bind (collapseGroups_moved (ih (depth + 1)) short)
          intro flat hflat
          have hgroups := collapseGroups_eq_ok_iff.1 hflat
          exact arrange_moved (ne_nil_of_collapses hne hcalls hgroups)

/-- Moved tokens are parsed to the same tree, or fail alike where the token has been moved
to. -/
theorem parseTokens_moved (settings : Settings) (move : Nat → Nat) (tokens : List Placed) :
    settings.parseTokens (tokens.map (Placed.moved move)) =
      (settings.parseTokens tokens).mapError (ParseError.moved move) :=
  (parseWithin_moved _ 0 tokens).trans (relocate_id _)

end Settings

end Formula
