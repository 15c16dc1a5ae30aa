/-
How arranging is refused.  A comma, an operator that lacks an operand and a limit refuse tokens
without parentheses, and where products are written with a star also values side by side.  What
is resolved is assembled, if a limit lets it, and no fault is found at a star that nobody wrote.
-/
import Formula.Proofs.Blame
import Formula.Proofs.Limits

namespace Formula

/-! Rows. -/

/-- No two values stand side by side. -/
def ValuesApart (tokens : List Placed) : Prop :=
  tokens.IsChain fun left right => ¬ (left.isValue = true ∧ right.isValue = true)

theorem ValuesApart.cons {first : Placed} {rest : List Placed} (hrest : ValuesApart rest)
    (hseam : ∀ next ∈ rest.head?, ¬ (first.isValue = true ∧ next.isValue = true)) :
    ValuesApart (first :: rest) := List.isChain_cons.2 ⟨hseam, hrest⟩

theorem valuesApart_insertStars (tokens : List Placed) : ValuesApart (insertStars tokens) := by
  induction tokens with
  | nil => exact List.isChain_nil
  | cons first rest ih =>
      rw [insertStars_cons]
      rcases starBetween_cases first rest.head? with hnone | ⟨right, _, _, _, hstar⟩
      · rw [hnone]
        apply ih.cons
        cases rest with
        | nil => exact nofun
        | cons next rest =>
            rw [insertStars_cons]
            rintro other hother ⟨hfirst, hvalue⟩
            obtain rfl : next = other := Option.some.inj hother
            rw [List.head?_cons, starBetween_values hfirst hvalue] at hnone
            cases hnone
      · rw [hstar]
        have hbehind : ValuesApart (⟨.star, right.position⟩ :: insertStars rest) :=
          ih.cons fun next _ hboth => by cases hboth.1
        exact hbehind.cons fun next hnext hboth => by
          obtain rfl := Option.some.inj hnext
          cases hboth.2

/-- Tokens that have been read: a row where the last one stands for a value, and otherwise what
becomes a row with every operand. -/
def ReadsRow (read : List Placed) : Bool → Prop
  | true => ∃ chain, Row chain read
  | false => ∀ tree operand, Signed tree operand → ∃ chain, Row chain (read ++ operand)

/-- A scan that ends has read a row, if no value follows a value. -/
theorem row_of_acceptAll {read rest : List Placed} {claims final : Claims} {index : Nat}
    {afterValue : Bool} (hread : ReadsRow read afterValue) (hend : rest = [] → afterValue = true)
    (hseam : afterValue = true → ∀ next ∈ rest.head?, next.isValue = false)
    (hapart : ValuesApart rest) (hrun : claims.acceptAll index afterValue rest = .ok final) :
    ∃ chain, Row chain (read ++ rest) := by
  induction rest generalizing read claims index afterValue with
  | nil =>
      rw [hend rfl] at hread
      rwa [List.append_nil]
  | cons placed rest ih =>
      rw [Claims.acceptAll_cons] at hrun
      obtain ⟨next, haccept, hrest⟩ := bind_eq_ok_iff.1 hrun
      have happend : read ++ placed :: rest = (read ++ [placed]) ++ rest := by simp
      have hbehind : placed.isValue = true → ∀ next ∈ rest.head?, next.isValue = false := by
        intro hplaced next hnext
        cases hvalue : next.isValue with
        | false => rfl
        | true => exact absurd ⟨hplaced, hvalue⟩ ((List.isChain_cons.1 hapart).1 next hnext)
      rw [happend]
      rcases Claims.accept_eq_ok haccept with ⟨tree, htree, _⟩ | ⟨hlast, hafter, op, hop, _⟩ |
        ⟨hlast, hafter, op, hop, _⟩
      · have hvalue : placed.isValue = true := Token.isValue_of_tree? htree
        rw [hvalue] at hrest hbehind
        cases afterValue with
        | true =>
            rw [hseam rfl placed rfl] at hvalue
            cases hvalue
        | false =>
            have hrow : ReadsRow (read ++ [placed]) true := hread tree [placed] (.value htree)
            exact ih hrow (fun _ => rfl) hbehind hapart.of_cons hrest
      · have hvalue : placed.isValue = false := Token.isValue_of_unary? hop
        rw [hvalue] at hrest
        rw [hafter] at hread
        have hsigned : ReadsRow (read ++ [placed]) false := by
          intro tree operand hoperand
          simpa using hread _ _ (.sign hop hoperand)
        exact ih hsigned (by simpa using hlast) nofun hapart.of_cons hrest
      · have hvalue : placed.isValue = false := Token.isValue_of_binary? hop
        rw [hvalue] at hrest
        rw [hafter] at hread
        obtain ⟨chain, hchain⟩ := hread
        have hpushed : ReadsRow (read ++ [placed]) false := by
          intro tree operand hoperand
          exact ⟨_, by simpa using hchain.push hop hoperand⟩
        exact ih hpushed (by simpa using hlast) nofun hapart.of_cons hrest

/-! Assembling. -/

namespace Slots

/-- The slots hold tokens of the list only. -/
def Within (slots : Slots) (tokens : List Placed) : Prop :=
  ∀ (index : Nat) (placed : Placed), slots[index]? = some (some placed) → placed ∈ tokens

theorem within_ofTokens (tokens : List Placed) : (ofTokens tokens).Within tokens := by
  intro index placed h
  have hplaced : tokens[index]? = some placed := by
    simpa [ofTokens] using h
  exact List.mem_of_getElem? hplaced

theorem Within.take {slots taken : Slots} {tokens : List Placed} {index : Nat} {placed : Placed}
    (h : slots.Within tokens) (htake : slots.take? index = some (placed, taken)) :
    placed ∈ tokens ∧ taken.Within tokens := by
  obtain ⟨hfull, rfl⟩ := take?_eq_some_iff.1 htake
  refine ⟨h index placed hfull, ?_⟩
  intro other next hnext
  by_cases heq : other = index
  · subst heq
    simp [Array.getElem?_setIfInBounds] at hnext
  · rw [slots.getElem?_take_ne heq] at hnext
    exact h other next hnext

end Slots

namespace Resolution

variable {resolution : Resolution} {tokens : List Placed}

theorem Assembles.within {room index : Nat} {slots rest : Slots} {tree : Expr}
    (h : resolution.Assembles room index slots tree rest) (hslots : slots.Within tokens) :
    rest.Within tokens := by
  induction h with
  | leaf htake htree hroom => exact (hslots.take htake).2
  | unary htake htree hnode hoperand ih => exact ih (hslots.take htake).2
  | binary htake htree hnode hleft hright ihleft ihright =>
      exact ihright (ihleft (hslots.take htake).2)

/-- What is known where a tree is assembled, of the room and of the slots, is known as well where
the trees below it are assembled. -/
structure Keeps (resolution : Resolution) (known : Nat → Slots → Prop) : Prop where
  taken : ∀ {room index : Nat} {slots taken : Slots} {placed : Placed}, known (room + 1) slots →
    slots.take? index = some (placed, taken) → known room taken
  behind : ∀ {room index : Nat} {slots rest : Slots} {tree : Expr}, known room slots →
    resolution.Assembles room index slots tree rest → known room rest

/-- An assembly fails for want of a root, or where there is less room than a token needs. -/
theorem Keeps.assembleAt_blames {known : Nat → Slots → Prop} {fits : ParseError → Prop}
    (h : resolution.Keeps known) (hroot : ∀ position, fits ⟨.noRootOperation, position⟩)
    (hdeep : ∀ {room index : Nat} {slots taken : Slots} {placed : Placed}, known room slots →
      slots.take? index = some (placed, taken) → room < placed.token.extent →
      ∀ depth, fits ⟨.tooDeep depth, placed.position⟩)
    (room level index : Nat) {slots : Slots} (hslots : known room slots) :
    Blames fits (resolution.assembleAt room level index slots) := by
  induction room, level, index, slots using assembly_induction with
  | missing room level index slots htake =>
      rw [assembleAt_none htake]
      exact .error (hroot 0)
  | leaf room level index slots placed taken tree htake htree =>
      rw [assembleAt_leaf htake htree]
      split
      · exact .ok _
      · rename_i hroom
        rw [Expr.height_eq_levels, ← Token.extent_of_tree? htree, Nat.not_le] at hroom
        exact .error (hdeep hslots htake hroom _)
  | full level index slots placed taken htake htree =>
      rw [assembleAt_zero htake htree]
      exact .error (hdeep hslots htake placed.token.extent_pos _)
  | operator room level index slots placed taken htake htree ih =>
      have htaken := h.taken hslots htake
      rw [assembleAt_succ htake htree]
      cases resolution.node? index placed.token with
      | none => exact .error (hroot placed.position)
      | some node =>
          cases node with
          | unary op operand =>
              apply (ih _ _ _ htaken).bind
              intro found _
              exact .ok _
          | binary op left right =>
              apply (ih _ _ _ htaken).bind
              intro found hfound
              have hbehind := h.behind htaken (assembleAt_eq_ok_iff.1 hfound)
              apply (ih _ _ _ hbehind).bind
              intro next _
              exact .ok _

theorem keeps_within : resolution.Keeps fun _ slots => slots.Within tokens :=
  ⟨fun h htake => (h.take htake).2, fun h hassembles => hassembles.within h⟩

end Resolution

section Assembling

variable {resolution : Resolution} {tokens : List Placed} {maxHeight : Nat}
  {fits : ParseError → Prop}

theorem Blames.assemble (hroot : ∀ position, fits ⟨.noRootOperation, position⟩)
    (hdeep : ∀ placed ∈ tokens, ∀ depth, fits ⟨.tooDeep depth, placed.position⟩) :
    Blames fits (resolution.assemble maxHeight tokens) := by
  apply (Resolution.keeps_within.assembleAt_blames hroot ?_ _ _ _
    (Slots.within_ofTokens tokens)).bind
  · intro taken _
    exact .ok _
  · intro room index slots taken placed hslots htake _
    exact hdeep placed (hslots.take htake).1

/-- What is resolved is assembled, or a limit is hit at one of its tokens. -/
theorem Resolution.assemble_blames (hresolve : resolve tokens = .ok resolution)
    (hdeep : ∀ placed ∈ tokens, ∀ depth, fits ⟨.tooDeep depth, placed.position⟩) :
    Blames fits (resolution.assemble maxHeight tokens) := by
  obtain ⟨located, hresolves, _⟩ := exists_resolves hresolve
  have hmore := Resolution.assemble_mono hresolves.assemble
    (Nat.le_max_right maxHeight located.expr.levels)
  -- a limit is a fault that fits; want of a root would be there with more room as well
  have hlimit : Blames (fun error => error.fault.IsLimit → fits error)
      (resolution.assemble maxHeight tokens) :=
    .assemble (fun _ => False.elim) fun placed hplaced depth _ => hdeep placed hplaced depth
  intro error herror
  rcases resolution.assemble_agrees (Nat.le_max_left maxHeight located.expr.levels) tokens with
    ⟨limit, hfound, hexcused⟩ | heq
  · obtain rfl := Except.error.inj (herror.symm.trans hfound)
    exact hlimit error herror hexcused
  · rw [heq, hmore] at herror
    cases herror

end Assembling

/-! Arranging. -/

theorem mem_insertStars {tokens : List Placed} {placed : Placed}
    (h : placed ∈ insertStars tokens) :
    placed ∈ tokens ∨ ∃ right ∈ tokens, placed = ⟨.star, right.position⟩ := by
  induction tokens with
  | nil => cases h
  | cons first rest ih =>
      rw [insertStars_cons, List.mem_cons, List.mem_append] at h
      rcases h with rfl | hstar | hrest
      · exact .inl List.mem_cons_self
      · rcases starBetween_cases first rest.head? with hnone | ⟨right, hhead, _, _, hone⟩
        · rw [hnone] at hstar
          cases hstar
        · rw [hone] at hstar
          have hright : right ∈ rest := List.mem_of_head? hhead
          exact .inr ⟨right, List.mem_cons_of_mem _ hright, List.mem_singleton.1 hstar⟩
      · rcases ih hrest with hkept | ⟨right, hright, heq⟩
        · exact .inl (List.mem_cons_of_mem _ hkept)
        · exact .inr ⟨right, List.mem_cons_of_mem _ hright, heq⟩

/-- A star that has been put in lacks nothing. -/
theorem mem_of_lacking {tokens before rest : List Placed} {placed : Placed}
    (h : insertStars tokens = before ++ placed :: rest) (hvalue : placed.isValue = false)
    (hlacking : Lacking before placed rest) : placed ∈ tokens := by
  rcases splits_of_insertStars hvalue h with ⟨front, back, rfl, _, _⟩ |
    ⟨front, last, next, back, rfl, hlast, _, hstar, hfront, hback⟩
  · simp
  · rcases hlacking with hoperator | hempty | hafter
    · rw [hstar] at hoperator
      cases hoperator
    · rw [hempty, insertStars_cons] at hback
      cases hback
    · rw [← hfront, getLast?_insertStars, List.getLast?_concat] at hafter
      rw [show Option.any Placed.isValue (some last) = last.isValue from rfl, hlast] at hafter
      cases hafter

section Arranging

variable {settings : Settings} {tokens : List Placed} {fits : ParseError → Prop}

theorem ClaimFaults.starred
    (hcomma : ∀ placed ∈ tokens, placed.token = .comma → fits ⟨.unexpectedComma, placed.position⟩)
    (hroot : ∀ placed ∈ tokens, placed.isValue = false → placed.token ≠ .comma →
      fits ⟨.noRootOperation, placed.position⟩) :
    ClaimFaults fits (settings.starred tokens) := by
  unfold Settings.starred
  split
  · constructor
    · intro placed hplaced htoken
      rcases mem_insertStars hplaced with hkept | ⟨right, _, rfl⟩
      · exact hcomma placed hkept htoken
      · cases htoken
    · intro before placed rest htokens hvalue htoken hlacking
      exact hroot placed (mem_of_lacking htokens hvalue hlacking) hvalue htoken
  · constructor
    · exact hcomma
    · intro before placed rest htokens hvalue htoken _
      exact hroot placed (by simp [htokens]) hvalue htoken

theorem mem_of_mem_starred {placed : Placed} (h : placed ∈ settings.starred tokens) :
    ∃ other ∈ tokens, other.position = placed.position := by
  unfold Settings.starred at h
  split at h
  · rcases mem_insertStars h with hkept | ⟨right, hright, rfl⟩
    · exact ⟨placed, hkept, rfl⟩
    · exact ⟨right, hright, rfl⟩
  · exact ⟨placed, h, rfl⟩

theorem starred_ne_nil (hne : tokens ≠ []) : settings.starred tokens ≠ [] := by
  obtain ⟨first, rest, rfl⟩ := List.exists_cons_of_ne_nil hne
  unfold Settings.starred
  split
  · rw [insertStars_cons]
    exact List.cons_ne_nil _ _
  · exact hne

/-- Arranging fails at a comma, at a limit, or for want of a root: then at an operator, unless
values stand side by side. -/
theorem Blames.arrange (hne : tokens ≠ [])
    (hcomma : ∀ placed ∈ tokens, placed.token = .comma → fits ⟨.unexpectedComma, placed.position⟩)
    (hroot : ∀ placed ∈ tokens,
      (settings.implicitProducts = true → placed.isValue = false ∧ placed.token ≠ .comma) →
      fits ⟨.noRootOperation, placed.position⟩)
    (hdeep : ∀ placed ∈ tokens, ∀ depth, fits ⟨.tooDeep depth, placed.position⟩) :
    Blames fits (settings.arrange tokens) := by
  have hclaims : ClaimFaults fits (settings.starred tokens) :=
    .starred hcomma fun placed hplaced hvalue htoken =>
      hroot placed hplaced fun _ => ⟨hvalue, htoken⟩
  have hresolve : Blames fits (Formula.resolve (settings.starred tokens)) := by
    apply Blames.resolve hclaims
    intro claims index hrun hno hlt
    have hindex := hlt (starred_ne_nil hne)
    by_cases himplicit : settings.implicitProducts = true
    · -- with a star between values, what is accepted is a row, and nothing is left over
      have hstarred : settings.starred tokens = insertStars tokens := if_pos himplicit
      rw [hstarred] at hrun hno hindex
      have hread : ReadsRow [] false := fun tree operand hoperand => ⟨_, .single hoperand⟩
      have hend : insertStars tokens = [] → false = true := by
        intro hempty
        rw [hempty] at hindex
        cases hindex
      obtain ⟨chain, hrow⟩ :=
        row_of_acceptAll hread hend nofun (valuesApart_insertStars tokens) hrun
      exact absurd hrow (hno chain)
    · have hstarred : settings.starred tokens = tokens := if_neg himplicit
      rw [hstarred] at hindex ⊢
      have hposition : positionAt tokens index = tokens[index].position := by
        simp [positionAt, hindex]
      rw [hposition]
      exact hroot _ (List.getElem_mem hindex) fun h => absurd h himplicit
  rw [Settings.arrange_eq]
  apply hresolve.bind
  intro resolution hok
  refine Resolution.assemble_blames hok fun placed hplaced depth => ?_
  obtain ⟨other, hother, hposition⟩ := mem_of_mem_starred hplaced
  rw [← hposition]
  exact hdeep other hother depth

end Arranging

end Formula
