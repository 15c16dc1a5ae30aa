/-
Owners and operands while operators claim.  After every token the owners say the same as the
operands, everything that is claimed stands below something that is not, and above the token
that was claimed last the operators get weaker and weaker.  So the claim of the next operator
climbs to an end, and the token behind it is free.
-/
import Formula.Proofs.Precedence.Resolving

namespace Formula

namespace Claims

variable {claims other : Claims}

/-! Climbing without a bound. -/

/-- From a token over its owners up to one that nothing owns; the owners that are met. -/
inductive Ascends (claims : Claims) : Nat → List Nat → Prop
  | top {index : Nat} (hnone : claims.owner? index = none) : Ascends claims index []
  | step {index owner : Nat} {owners : List Nat} (howned : claims.owner? index = some owner)
      (hrest : Ascends claims owner owners) : Ascends claims index (owner :: owners)

namespace Ascends

theorem unique {index : Nat} {owners others : List Nat} (h : claims.Ascends index owners)
    (hother : claims.Ascends index others) : owners = others := by
  induction h generalizing others with
  | top hnone =>
      cases hother with
      | top => rfl
      | step howned => cases hnone.symm.trans howned
  | step howned _ ih =>
      cases hother with
      | top hnone => cases hnone.symm.trans howned
      | step howned' hrest' =>
          obtain rfl := Option.some.inj (howned.symm.trans howned')
          rw [ih hrest']

theorem of_mem {index owner : Nat} {owners : List Nat} (h : claims.Ascends index owners)
    (hmem : owner ∈ owners) :
    ∃ rest, claims.Ascends owner rest ∧ rest.length < owners.length := by
  induction h with
  | top => cases hmem
  | @step index next owners _ hrest ih =>
      rcases List.mem_cons.1 hmem with rfl | hmem
      · exact ⟨owners, hrest, Nat.lt_succ_self _⟩
      · obtain ⟨rest, hascends, hlt⟩ := ih hmem
        exact ⟨rest, hascends, Nat.lt_succ_of_lt hlt⟩

/-- A way up that ends does not come back to where it was. -/
theorem nodup {index : Nat} {owners : List Nat} (h : claims.Ascends index owners) :
    (index :: owners).Nodup := by
  induction h with
  | top => exact List.nodup_singleton _
  | @step index owner owners howned hrest ih =>
      refine List.nodup_cons.2 ⟨fun hmem => ?_, ih⟩
      obtain ⟨rest, hagain, hlt⟩ := (step howned hrest).of_mem hmem
      rw [(step howned hrest).unique hagain] at hlt
      exact Nat.lt_irrefl _ hlt

theorem congr {index : Nat} {owners : List Nat} (h : claims.Ascends index owners)
    (hsame : ∀ met ∈ index :: owners, other.owner? met = claims.owner? met) :
    other.Ascends index owners := by
  induction h with
  | top hnone => exact .top ((hsame _ List.mem_cons_self).trans hnone)
  | step howned _ ih =>
      exact .step ((hsame _ List.mem_cons_self).trans howned)
        (ih fun met hmet => hsame met (List.mem_cons_of_mem _ hmet))

/-- If there is a way up from every token whose owner has changed, there is one from all others
as well. -/
theorem transfer {index : Nat} {owners : List Nat} (h : claims.Ascends index owners)
    (hchanged : ∀ index, other.owner? index ≠ claims.owner? index →
      ∃ owners, other.Ascends index owners) : ∃ owners, other.Ascends index owners := by
  induction h with
  | @top index hnone =>
      by_cases hsame : other.owner? index = claims.owner? index
      · exact ⟨[], .top (hsame.trans hnone)⟩
      · exact hchanged index hsame
  | @step index owner owners howned hrest ih =>
      by_cases hsame : other.owner? index = claims.owner? index
      · obtain ⟨found, hfound⟩ := ih
        exact ⟨owner :: found, .step (hsame.trans howned) hfound⟩
      · exact hchanged index hsame

end Ascends

/-- Climbing from a token while its owner is recorded and binds at least as tightly as a
priority, wherever that owner stands.  It ends at a token that nothing owns, or whose owner is
recorded and weaker. -/
inductive Climbs (claims : Claims) (priority : Nat) : Nat → Nat → Prop
  | unowned {operand : Nat} (hnone : claims.owner? operand = none) :
      Climbs claims priority operand operand
  | weaker {operand owner : Nat} {operation : Operation}
      (howned : claims.owner? operand = some owner)
      (hrecorded : claims.operation? owner = some operation)
      (hweaker : operation.priority < priority) : Climbs claims priority operand operand
  | step {operand owner top : Nat} {operation : Operation}
      (howned : claims.owner? operand = some owner)
      (hrecorded : claims.operation? owner = some operation)
      (hbinds : priority ≤ operation.priority) (hrest : Climbs claims priority owner top) :
      Climbs claims priority operand top

/-- Two owners are recorded, and if the one below is an operator and no sign, then so is the one
above, and it is weaker. -/
def Weakens (claims : Claims) (below above : Nat) : Prop :=
  ∃ inner outer, claims.operation? below = some inner ∧ claims.operation? above = some outer ∧
    (inner.isBinary = true → outer.isBinary = true ∧ outer.priority < inner.priority)

/-- The token behind the operator that was recorded last.  It was the last one to be claimed. -/
def LastClaimed (claims : Claims) (index : Nat) : Prop :=
  ∃ operator, index = operator + 1 ∧ (claims.operation? operator).isSome = true ∧
    ∀ other, operator < other → claims.operation? other = none

/-- The owners and the operands of the operations that are recorded among the first tokens. -/
structure Linked (claims : Claims) (count : Nat) : Prop where
  /-- A token has an owner exactly if the owner is recorded and has it among its operands. -/
  owner?_eq_some_iff : ∀ index owner, claims.owner? index = some owner ↔
    ∃ operation, claims.operation? owner = some operation ∧ index ∈ operation.operands
  once : ∀ owner operation, claims.operation? owner = some operation → operation.operands.Nodup
  recent : ∀ owner operation, claims.operation? owner = some operation → owner < count
  /-- From every token owners lead up to one that nothing owns, and never back. -/
  ascends : ∀ index, ∃ owners, claims.Ascends index owners ∧ (index :: owners).Nodup
  weakens : ∀ last, claims.LastClaimed last → ∀ owners, claims.Ascends last owners →
    owners.Pairwise claims.Weakens

theorem mem_operands_substitute {operand claimant index : Nat} {operation : Operation} :
    index ∈ (substitute operand claimant operation).operands ↔
      index = claimant ∧ operand ∈ operation.operands ∨
        index ≠ operand ∧ index ∈ operation.operands := by
  simp only [substitute, List.mem_map]
  constructor
  · rintro ⟨slot, hslot, rfl⟩
    by_cases heq : slot = operand
    · exact .inl ⟨if_pos heq, heq ▸ hslot⟩
    · rw [if_neg heq]
      exact .inr ⟨heq, hslot⟩
  · rintro (⟨rfl, hoperand⟩ | ⟨hne, hindex⟩)
    · exact ⟨operand, hoperand, if_pos rfl⟩
    · exact ⟨index, hindex, if_neg hne⟩

theorem nodup_operands_substitute {operand claimant : Nat} {operation : Operation}
    (h : operation.operands.Nodup) (hfresh : claimant ∉ operation.operands) :
    (substitute operand claimant operation).operands.Nodup := by
  refine h.map_on fun slot hslot other hother heq => ?_
  by_cases hslotEq : slot = operand <;> by_cases hotherEq : other = operand
  · rw [hslotEq, hotherEq]
  · rw [if_pos hslotEq, if_neg hotherEq] at heq
    exact absurd (heq ▸ hother) hfresh
  · rw [if_neg hslotEq, if_pos hotherEq] at heq
    exact absurd (heq ▸ hslot) hfresh
  · rwa [if_neg hslotEq, if_neg hotherEq] at heq

theorem topmost_le (claims : Claims) (priority operand : Nat) :
    claims.topmost priority operand ≤ operand := by
  fun_induction topmost claims priority operand with
  | case1 operand owner howned hclimbs ih => exact Nat.le_trans ih (Nat.le_of_lt hclimbs.1)
  | case2 | case3 => exact Nat.le_refl _

theorem topmost_lt (claims : Claims) (priority : Nat) {count : Nat} (hpos : 0 < count) :
    claims.topmost priority (count - 1) < count := by
  have := claims.topmost_le priority (count - 1)
  omega

namespace Linked

variable {count : Nat}

theorem start : Linked {} 0 where
  owner?_eq_some_iff index owner := by
    constructor
    · exact nofun
    · rintro ⟨_, hoperation, _⟩
      cases hoperation
  once _ _ := nofun
  recent _ _ := nofun
  ascends index := ⟨[], .top rfl, List.nodup_singleton index⟩
  weakens last hlast := by
    obtain ⟨operator, _, hsome, _⟩ := hlast
    cases hsome

theorem mono (h : claims.Linked count) {more : Nat} (hle : count ≤ more) : claims.Linked more :=
  { h with recent := fun owner operation hoperation =>
      Nat.lt_of_lt_of_le (h.recent owner operation hoperation) hle }

theorem owner?_ne_of_le (h : claims.Linked count) {index owner : Nat} (hle : count ≤ owner) :
    claims.owner? index ≠ some owner := by
  intro howned
  obtain ⟨operation, hoperation, _⟩ := (h.owner?_eq_some_iff index owner).1 howned
  exact absurd (h.recent owner operation hoperation) (Nat.not_lt_of_le hle)

theorem lt_of_ascends (h : claims.Linked count) {index : Nat} {owners : List Nat}
    (hascends : claims.Ascends index owners) : ∀ owner ∈ owners, owner < count := by
  induction hascends with
  | top => exact nofun
  | @step index owner owners howned hrest ih =>
      refine List.forall_mem_cons.2 ⟨Nat.lt_of_not_le fun hle => ?_, ih⟩
      exact h.owner?_ne_of_le hle howned

section Sign

variable (h : claims.Linked count) (hfree : claims.owner? (count + 1) = none) (priority : Nat)
include h hfree

theorem owner?_claim_sign_iff (index owner : Nat) :
    (claims.claim count priority false).owner? index = some owner ↔
      ∃ operation, (claims.claim count priority false).operation? owner = some operation ∧
        index ∈ operation.operands := by
  rw [owner?_claim_sign, operation?_claim_sign]
  by_cases howner : count = owner
  · subst howner
    by_cases hindex : count + 1 = index
    · simp [hindex]
    · have hno : claims.owner? index ≠ some count := h.owner?_ne_of_le (Nat.le_refl count)
      simp [hindex, hno, Ne.symm hindex]
  · rw [if_neg howner, ← h.owner?_eq_some_iff]
    by_cases hindex : count + 1 = index
    · simp [← hindex, hfree, howner]
    · rw [if_neg hindex]

theorem ascends_claim_sign (index : Nat) :
    ∃ owners, (claims.claim count priority false).Ascends index owners := by
  obtain ⟨owners, howners, _⟩ := h.ascends index
  apply howners.transfer
  intro changed hne
  rw [owner?_claim_sign] at hne
  have hbehind : count + 1 = changed := by
    by_contra hother
    exact hne (if_neg hother)
  subst hbehind
  obtain ⟨outer, houter, _⟩ := h.ascends count
  refine ⟨count :: outer, .step (by rw [owner?_claim_sign, if_pos rfl]) (houter.congr ?_)⟩
  intro met hmet
  have hlt : met < count + 1 := by
    rcases List.mem_cons.1 hmet with rfl | hmet
    · exact Nat.lt_succ_self _
    · exact Nat.lt_succ_of_lt (h.lt_of_ascends houter met hmet)
  rw [owner?_claim_sign, if_neg (Nat.ne_of_gt hlt)]

end Sign

theorem owner?_of_mem (h : claims.Linked count) {owner index : Nat} {operation : Operation}
    (hoperation : claims.operation? owner = some operation) (hmem : index ∈ operation.operands) :
    claims.owner? index = some owner :=
  (h.owner?_eq_some_iff index owner).2 ⟨operation, hoperation, hmem⟩

/-- Where a claimant is put into the place of an operand, the operations have the claimant as
their operand in its stead. -/
theorem mem_operands_replace_iff (h : claims.Linked count) (operand claimant index owner : Nat) :
    (∃ operation, (claims.replace operand claimant).operation? owner = some operation ∧
        index ∈ operation.operands) ↔
      index = claimant ∧ claims.owner? operand = some owner ∨
        index ≠ operand ∧ claims.owner? index = some owner := by
  rw [operation?_replace, h.owner?_eq_some_iff index]
  by_cases howned : claims.owner? operand = some owner
  · obtain ⟨operation, hoperation, hmem⟩ := (h.owner?_eq_some_iff operand owner).1 howned
    simp [howned, hoperation, mem_operands_substitute, hmem]
  · rw [if_neg howned]
    constructor
    · rintro ⟨operation, hoperation, hmem⟩
      refine .inr ⟨?_, operation, hoperation, hmem⟩
      rintro rfl
      exact howned (h.owner?_of_mem hoperation hmem)
    · rintro (⟨_, hcontra⟩ | ⟨_, hmem⟩)
      · exact absurd hcontra howned
      · exact hmem

section Operator

variable (h : claims.Linked count) (hpos : 0 < count) (hfree : claims.owner? count = none)
  (priority : Nat)
include h hpos hfree

theorem owner?_claim_operator_iff (hbehind : claims.owner? (count + 1) = none)
    (index owner : Nat) :
    (claims.claim count priority true).owner? index = some owner ↔
      ∃ operation, (claims.claim count priority true).operation? owner = some operation ∧
        index ∈ operation.operands := by
  have htop := claims.topmost_lt priority hpos
  have hreplace :=
    h.mem_operands_replace_iff (claims.topmost priority (count - 1)) count index owner
  rw [operation?_replace] at hreplace
  rw [owner?_claim_operator, operation?_claim_operator]
  generalize claims.topmost priority (count - 1) = top at *
  have hno : ∀ index, claims.owner? index ≠ some count := fun index =>
    h.owner?_ne_of_le (Nat.le_refl count)
  by_cases howner : count = owner
  · subst howner
    have hoperands : (∃ operation, some (Operation.mk true priority [top, count + 1]) =
        some operation ∧ index ∈ operation.operands) ↔ count + 1 = index ∨ top = index := by
      simp [eq_comm, or_comm]
    rw [if_pos rfl, hoperands]
    by_cases htaken : count + 1 = index ∨ top = index
    · rw [if_pos htaken]
      exact iff_of_true rfl htaken
    · have hnone : (if count = index then (claims.owner? top).or (claims.owner? index)
          else claims.owner? index) ≠ some count := by
        split
        · rename_i hindex
          rw [← hindex, hfree, Option.or_none]
          exact hno top
        · exact hno index
      rw [if_neg htaken]
      exact iff_of_false hnone htaken
  · rw [if_neg howner, hreplace]
    by_cases hindex : count = index
    · subst hindex
      have htaken : ¬ (count + 1 = count ∨ top = count) := by omega
      rw [if_neg htaken, if_pos rfl, hfree, Option.or_none]
      simp
    · by_cases htaken : count + 1 = index ∨ top = index
      · rw [if_pos htaken]
        refine iff_of_false (fun heq => howner (Option.some.inj heq)) ?_
        rintro (⟨heq, _⟩ | ⟨hne, howned⟩)
        · exact hindex heq.symm
        · obtain rfl := htaken.resolve_right hne.symm
          rw [hbehind] at howned
          cases howned
      · have hne : index ≠ top := fun heq => htaken (.inr heq.symm)
        rw [if_neg htaken, if_neg hindex]
        simp [Ne.symm hindex, hne]

/-- The operands of the operations that were there stay apart, and so do the two new ones. -/
theorem nodup_claim_operator (owner : Nat) (operation : Operation)
    (hoperation : (claims.claim count priority true).operation? owner = some operation) :
    operation.operands.Nodup := by
  have htop := claims.topmost_lt priority hpos
  rw [operation?_claim_operator] at hoperation
  split at hoperation
  · obtain rfl := Option.some.inj hoperation
    have hne : claims.topmost priority (count - 1) ≠ count + 1 := by omega
    simp [hne]
  · split at hoperation
    · obtain ⟨before, hbefore, rfl⟩ := Option.map_eq_some_iff.1 hoperation
      refine nodup_operands_substitute (h.once owner before hbefore) fun hmem => ?_
      cases hfree.symm.trans (h.owner?_of_mem hbefore hmem)
    · exact h.once owner operation hoperation

/-- The claimant steps into the place of what it takes, which goes below it. -/
theorem ascends_claim_operator (index : Nat) :
    ∃ owners, (claims.claim count priority true).Ascends index owners := by
  have htop := claims.topmost_lt priority hpos
  obtain ⟨outer, houter, _⟩ := h.ascends (claims.topmost priority (count - 1))
  have howner := owner?_claim_operator claims count priority
  generalize claims.topmost priority (count - 1) = top at *
  have hclaimant : (claims.claim count priority true).Ascends count outer := by
    cases houter with
    | top hnone =>
        refine .top ?_
        rw [howner, if_neg (by omega), if_pos rfl, hnone, hfree]
        rfl
    | @step _ above rest howned hrest =>
        refine .step ?_ (hrest.congr fun met hmet => ?_)
        · rw [howner, if_neg (by omega), if_pos rfl, howned]
          rfl
        · have hbelow := (Ascends.step howned hrest).nodup
          have hlt := h.lt_of_ascends (.step howned hrest) met hmet
          have hne : top ≠ met := fun heq => (List.nodup_cons.1 hbelow).1 (heq ▸ hmet)
          rw [howner, if_neg (by omega), if_neg (by omega)]
  have hoperand : ∀ operand, count + 1 = operand ∨ top = operand →
      (claims.claim count priority true).Ascends operand (count :: outer) := by
    intro operand htaken
    refine .step ?_ hclaimant
    rw [howner, if_pos htaken]
  obtain ⟨owners, howners, _⟩ := h.ascends index
  apply howners.transfer
  intro changed hne
  by_cases htaken : count + 1 = changed ∨ top = changed
  · exact ⟨_, hoperand changed htaken⟩
  · rw [howner, if_neg htaken] at hne
    by_cases hcount : count = changed
    · exact ⟨outer, hcount ▸ hclaimant⟩
    · exact absurd (if_neg hcount) hne

end Operator

end Linked

end Claims

/-! Ways up a spine. -/

namespace Frame

theorem Below.trans {frame middle outer : Frame} (h : frame.Below middle)
    (hmiddle : middle.Below outer) : frame.Below outer := by
  cases frame with
  | sign index op => trivial
  | operator index op left =>
      obtain ⟨hbinary, hlt⟩ := h.isBinary rfl
      exact Nat.lt_trans (hmiddle.isBinary hbinary).2 hlt

end Frame

namespace Spine

variable {claims : Claims} {spine : Spine} {hole : Nat}

theorem Ordered.pairwise_below (h : Ordered spine) : spine.Pairwise Frame.Below := by
  induction spine with
  | nil => exact .nil
  | cons frame outer ih =>
      obtain ⟨_, hhead, houter⟩ := h
      have hpairwise := ih houter
      refine List.pairwise_cons.2 ⟨fun next hnext => ?_, hpairwise⟩
      cases outer with
      | nil => cases hnext
      | cons first rest =>
          have hfirst := hhead first rfl
          rcases List.mem_cons.1 hnext with rfl | hnext
          · exact hfirst
          · exact hfirst.trans (List.rel_of_pairwise_cons hpairwise hnext)

theorem Recorded.ascends (h : Recorded claims spine hole) :
    claims.Ascends hole (spine.map Frame.index) := by
  induction spine generalizing hole with
  | nil => exact .top h
  | cons frame outer ih =>
      cases frame with
      | sign index op => exact .step h.2.1 (ih h.2.2)
      | operator index op left => exact .step h.2.2.1 (ih h.2.2.2.2)

theorem Recorded.exists_operation (h : Recorded claims spine hole) {frame : Frame}
    (hframe : frame ∈ spine) : ∃ operands,
      claims.operation? frame.index = some ⟨frame.isBinary, frame.priority, operands⟩ := by
  induction spine generalizing hole with
  | nil => cases hframe
  | cons first outer ih =>
      rcases List.mem_cons.1 hframe with rfl | houter
      · cases frame with
        | sign index op => exact ⟨_, h.1⟩
        | operator index op left => exact ⟨_, h.1⟩
      · cases first with
        | sign index op => exact ih h.2.2 houter
        | operator index op left => exact ih h.2.2.2.2 houter

theorem Recorded.pairwise_weakens (h : Recorded claims spine hole) (hordered : Ordered spine) :
    (spine.map Frame.index).Pairwise claims.Weakens := by
  refine List.pairwise_map.2 (hordered.pairwise_below.imp_of_mem ?_)
  intro frame outer hframe houter hbelow
  obtain ⟨operands, hrecorded⟩ := h.exists_operation hframe
  obtain ⟨outerOperands, houterRecorded⟩ := h.exists_operation houter
  exact ⟨_, _, hrecorded, houterRecorded, hbelow.isBinary⟩

/-- Climbing ends at the top of what the spine closes down to the priority. -/
theorem Recorded.climbs {last : Located} (h : Recorded claims spine last.root)
    (hlast : last.Recorded claims) (priority : Nat) :
    claims.Climbs priority last.root (Spine.reduce priority last spine).2.root := by
  induction spine generalizing last with
  | nil => exact .unowned h
  | cons frame outer ih =>
      obtain ⟨operands, hoperation⟩ := h.exists_operation List.mem_cons_self
      obtain ⟨houter, hplug⟩ := h.plug_frame hlast
      by_cases hbinds : priority ≤ frame.priority
      · have hrest := ih houter hplug
        rw [Frame.root_plug] at hrest
        simpa [Spine.reduce, hbinds] using Claims.Climbs.step h.owner?_eq hoperation hbinds hrest
      · have hweaker : frame.priority < priority := Nat.lt_of_not_le hbinds
        simpa [Spine.reduce, hbinds] using Claims.Climbs.weaker h.owner?_eq hoperation hweaker

end Spine

/-! The scan. -/

namespace Claims

variable {tokens : List Placed} {claims next : Claims} {count : Nat}

/-- The scan has taken in so many tokens and holds these claims. -/
inductive Scans (tokens : List Placed) : Nat → Claims → Prop
  | start : Scans tokens 0 {}
  | step {count : Nat} {claims next : Claims} {placed : Placed} (hscans : Scans tokens count claims)
      (htoken : tokens[count]? = some placed)
      (haccept : claims.accept count (followsValue tokens count) (count + 1 == tokens.length)
        placed = .ok next) : Scans tokens (count + 1) next

/-- The scan of the whole goes on from there. -/
theorem Scans.acceptAll_eq (h : Scans tokens count claims) :
    acceptAll {} 0 false tokens =
      claims.acceptAll count (followsValue tokens count) (tokens.drop count) := by
  induction h with
  | start => rfl
  | @step count claims next placed hscans htoken haccept ih =>
      obtain ⟨hlt, rfl⟩ := List.getElem?_eq_some_iff.1 htoken
      have hlast : (tokens.drop (count + 1)).isEmpty = (count + 1 == tokens.length) := by
        rw [Bool.eq_iff_iff, List.isEmpty_iff, List.drop_eq_nil_iff, beq_iff_eq]
        omega
      rw [ih, List.drop_eq_getElem_cons hlt, acceptAll_cons, hlast, haccept,
        followsValue_succ htoken]
      rfl

/-- The scan stands at an open place, or behind the value that has closed it. -/
inductive Stands (tokens : List Placed) (claims : Claims) : Nat → Bool → Prop
  | place {first hole : Nat} {spine : Spine} (hstanding : Standing tokens claims first spine hole) :
      Stands tokens claims hole false
  | value {first last : Nat} {spine : Spine} {tree : Expr}
      (hholding : Holding tokens claims first spine last tree) :
      Stands tokens claims (last + 1) true

/-- Nothing behind the next token is claimed. -/
theorem Stands.fresh {afterValue : Bool} (h : Stands tokens claims count afterValue) :
    ∀ index, count < index → claims.owner? index = none := by
  intro index hlt
  cases h with
  | place hstanding => exact hstanding.fresh index hlt
  | value hholding => exact hholding.fresh index (Nat.lt_of_succ_lt hlt)

/-- The operator that has been recorded last is the one at the end of the spine. -/
theorem Linked.of_claim {first : Nat} {spine : Spine}
    (hstanding : Standing tokens next first spine (count + 1))
    (hiff : ∀ index owner, next.owner? index = some owner ↔
      ∃ operation, next.operation? owner = some operation ∧ index ∈ operation.operands)
    (honce : ∀ owner operation, next.operation? owner = some operation → operation.operands.Nodup)
    (hrecent : ∀ owner operation, next.operation? owner = some operation → owner < count + 1)
    (hascends : ∀ index, ∃ owners, next.Ascends index owners)
    (hcount : (next.operation? count).isSome = true) : next.Linked (count + 1) where
  owner?_eq_some_iff := hiff
  once := honce
  recent := hrecent
  ascends index := by
    obtain ⟨owners, howners⟩ := hascends index
    exact ⟨owners, howners, howners.nodup⟩
  weakens last hlast owners howners := by
    obtain ⟨operator, rfl, hsome, hnone⟩ := hlast
    obtain ⟨operation, hoperation⟩ := Option.isSome_iff_exists.1 hsome
    have hle := hrecent operator operation hoperation
    have hge : ¬ operator < count := fun hlt => by
      rw [hnone count hlt] at hcount
      cases hcount
    obtain rfl : operator = count := by omega
    rw [howners.unique hstanding.recorded.ascends]
    exact hstanding.recorded.pairwise_weakens hstanding.ordered

theorem Linked.sign {first : Nat} {spine : Spine} (h : claims.Linked count)
    (hfree : claims.owner? (count + 1) = none)
    (hstanding : Standing tokens (claims.claim count UnaryOperator.priority false) first spine
      (count + 1)) :
    (claims.claim count UnaryOperator.priority false).Linked (count + 1) := by
  refine .of_claim hstanding (h.owner?_claim_sign_iff hfree _) ?_ ?_
    (h.ascends_claim_sign hfree _) ?_
  · intro owner operation hoperation
    rw [operation?_claim_sign] at hoperation
    split at hoperation
    · obtain rfl := Option.some.inj hoperation
      exact List.nodup_singleton _
    · exact h.once owner operation hoperation
  · intro owner operation hoperation
    rw [operation?_claim_sign] at hoperation
    split at hoperation
    · omega
    · exact Nat.lt_succ_of_lt (h.recent owner operation hoperation)
  · rw [operation?_claim_sign, if_pos rfl]
    rfl

theorem Linked.operator {first priority : Nat} {spine : Spine} (h : claims.Linked count)
    (hpos : 0 < count) (hfree : claims.owner? count = none)
    (hbehind : claims.owner? (count + 1) = none)
    (hstanding : Standing tokens (claims.claim count priority true) first spine (count + 1)) :
    (claims.claim count priority true).Linked (count + 1) := by
  refine .of_claim hstanding (h.owner?_claim_operator_iff hpos hfree _ hbehind)
    (h.nodup_claim_operator hpos hfree _) ?_ (h.ascends_claim_operator hpos hfree _) ?_
  · intro owner operation hoperation
    rw [operation?_claim_operator] at hoperation
    split at hoperation
    · omega
    · split at hoperation
      · obtain ⟨before, hbefore, _⟩ := Option.map_eq_some_iff.1 hoperation
        exact Nat.lt_succ_of_lt (h.recent owner before hbefore)
      · exact Nat.lt_succ_of_lt (h.recent owner operation hoperation)
  · rw [operation?_claim_operator, if_pos rfl]
    rfl

/-- What a token that is taken in does to where the scan stands and to the links. -/
theorem Stands.accept {afterValue isLast : Bool} {placed : Placed}
    (h : Stands tokens claims count afterValue) (hlinked : claims.Linked count)
    (htoken : tokens[count]? = some placed)
    (haccept : claims.accept count afterValue isLast placed = .ok next) :
    Stands tokens next (count + 1) placed.isValue ∧ next.Linked (count + 1) := by
  have hfresh := h.fresh
  rcases accept_eq_ok haccept with ⟨tree, htree, rfl⟩ | ⟨_, hafter, op, hop, rfl⟩ |
    ⟨_, hafter, op, hop, rfl⟩
  · have hvalue : placed.isValue = true := Token.isValue_of_tree? htree
    rw [hvalue]
    refine ⟨?_, hlinked.mono (Nat.le_succ count)⟩
    cases h with
    | place hstanding => exact .value ⟨hstanding, placed, htoken, htree⟩
    | @value first last spine tree hholding =>
        exact .value ⟨hholding.toStanding.restart tree, placed, htoken, htree⟩
  · have hvalue : placed.isValue = false := Token.isValue_of_unary? hop
    rw [hvalue]
    cases h with
    | value hholding => cases hafter
    | place hstanding =>
        have hnext := hstanding.sign htoken hop
        exact ⟨.place hnext, hlinked.sign (hfresh _ (Nat.lt_succ_self _)) hnext⟩
  · have hvalue : placed.isValue = false := Token.isValue_of_binary? hop
    rw [hvalue]
    cases h with
    | place hstanding => cases hafter
    | value hholding =>
        have hnext := hholding.toStanding.operator hholding.value htoken hop
        have hfree := hholding.fresh _ (Nat.lt_succ_self _)
        exact ⟨.place hnext,
          hlinked.operator (Nat.succ_pos _) hfree (hfresh _ (Nat.lt_succ_self _)) hnext⟩

theorem Scans.stands (h : Scans tokens count claims) :
    Stands tokens claims count (followsValue tokens count) ∧ claims.Linked count := by
  induction h with
  | start => exact ⟨.place (.start tokens), .start⟩
  | step hscans htoken haccept ih =>
      rw [followsValue_succ htoken]
      exact ih.1.accept ih.2 htoken haccept

/-- Climbing from the value in front of an operator ends, at what the operator claims. -/
theorem Stands.climbs (h : Stands tokens claims count true) (priority : Nat) :
    claims.Climbs priority (count - 1) (claims.topmost priority (count - 1)) := by
  cases h with
  | @value first last spine tree hholding =>
      have hleaf : (Located.leaf last tree).Spans last (last + 1) := ⟨rfl, rfl⟩
      have hleafRecorded : (Located.leaf last tree).Recorded claims := trivial
      have htop := hholding.recorded.topmost_eq hleafRecorded hholding.spans hleaf priority
      have hclimbs := hholding.recorded.climbs hleafRecorded priority
      rw [← htop] at hclimbs
      exact hclimbs

theorem owner?_claimLeft_succ {afterValue : Bool} (h : Stands tokens claims count afterValue)
    (priority : Nat) : (claims.claimLeft count priority).1.owner? (count + 1) = none := by
  have hle := claims.topmost_le priority (count - 1)
  rw [owner?_claimLeft, if_neg (by omega), if_neg (by omega)]
  exact h.fresh _ (Nat.lt_succ_self _)

end Claims

/-- After every token that the scan has taken in, the owners and the operands mirror each other,
owners lead from every token to one that nothing owns, and above the token claimed last the
operators get weaker.  For an operator that comes next, the climb over the owners ends, at the
operand that it claims, and no owner on the way is missing; and the token behind it is free,
before it has claimed what stands in front of it and after that. -/
theorem claims_linked {tokens : List Placed} {count : Nat} {claims : Claims}
    (h : Claims.Scans tokens count claims) :
    Claims.acceptAll {} 0 false tokens =
        claims.acceptAll count (followsValue tokens count) (tokens.drop count) ∧
      claims.Linked count ∧
      (followsValue tokens count = true → ∀ priority,
        claims.Climbs priority (count - 1) (claims.topmost priority (count - 1))) ∧
      claims.owner? (count + 1) = none ∧
      ∀ priority, (claims.claimLeft count priority).1.owner? (count + 1) = none := by
  obtain ⟨hstands, hlinked⟩ := h.stands
  refine ⟨h.acceptAll_eq, hlinked, fun hvalue => ?_, hstands.fresh _ (Nat.lt_succ_self count),
    Claims.owner?_claimLeft_succ hstands⟩
  rw [hvalue] at hstands
  exact hstands.climbs

/-- In front of the last difference the power and the first difference stand above each other,
and the climb goes over both of them. -/
theorem claims_linked_differences : ∃ claims, Claims.Scans differences 6 claims ∧
    claims.Linked 6 ∧ claims.Ascends 5 [4, 1] ∧ claims.Climbs 4 5 1 ∧
    claims.owner? 7 = none := by
  let first := Claims.claim {} 1 4 true
  let second := first.claim 2 UnaryOperator.priority false
  let third := second.claim 4 6 true
  have hfirst : Claims.Scans differences 2 first := .step (.step .start rfl rfl) rfl rfl
  have hsecond : Claims.Scans differences 4 second := .step (.step hfirst rfl rfl) rfl rfl
  have hthird : Claims.Scans differences 6 third := .step (.step hsecond rfl rfl) rfl rfl
  obtain ⟨_, hlinked, hclimbs, hfree, _⟩ := claims_linked hthird
  have htop : third.topmost 4 5 = 1 := by decide +kernel
  have hascends : third.Ascends 5 [4, 1] :=
    .step (by decide +kernel) (.step (by decide +kernel) (.top (by decide +kernel)))
  exact ⟨third, hthird, hlinked, hascends, htop ▸ hclimbs rfl 4, hfree⟩

end Formula
