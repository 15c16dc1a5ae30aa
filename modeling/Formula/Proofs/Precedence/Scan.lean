/-
The scan that lets operators claim their operands, step by step.  Where it stands is
a spine whose open place is the next token, or the last one if that is a value.
-/
import Formula.Proofs.Precedence.Claiming

namespace Formula

/-- The claims stand for a spine over the tokens from `first` on, which is open at
`hole`. -/
structure Standing (tokens : List Placed) (claims : Claims) (first : Nat) (spine : Spine)
    (hole : Nat) : Prop where
  recorded : Spine.Recorded claims spine hole
  spans : Spine.Spans first spine hole
  matched : Spine.Matches tokens spine
  ordered : Spine.Ordered spine
  signsBind : Spine.SignsBind spine
  /-- Nothing but an operator has an operation. -/
  operators : ∀ index operation, claims.operation? index = some operation →
    ∃ placed, tokens[index]? = some placed ∧ placed.token.isOperator = true
  /-- Nothing behind the open place is claimed yet. -/
  fresh : ∀ index, hole < index → claims.owner? index = none
  /-- A tree that ended in front of this one has a top that nothing claims. -/
  ended : 0 < first → ∃ index < first, claims.owner? index = none

namespace Standing

variable {tokens : List Placed} {claims : Claims} {first hole : Nat} {spine : Spine}

theorem start (tokens : List Placed) : Standing tokens {} 0 [] 0 where
  recorded := rfl
  spans := rfl
  matched := by simp [Spine.Matches]
  ordered := trivial
  signsBind := nofun
  operators _ _ := nofun
  fresh _ _ := rfl
  ended h := absurd h (Nat.lt_irrefl 0)

theorem fits (h : Standing tokens claims first spine hole) (tree : Expr) :
    Spine.Fits spine (.leaf hole tree) :=
  ⟨h.ordered, trivial, fun frame _ => frame.admits_operand tree⟩

/-- A sign at the open place claims the token behind it. -/
theorem sign {op : UnaryOperator} {placed : Placed} (h : Standing tokens claims first spine hole)
    (htoken : tokens[hole]? = some placed) (hop : placed.token.unary? = some op) :
    Standing tokens (claims.claim hole UnaryOperator.priority false) first
      (.sign hole op :: spine) (hole + 1) where
  recorded := by
    refine ⟨?_, ?_, h.recorded.congr h.spans ?_ ?_ ?_⟩
    · rw [Claims.operation?_claim_sign, if_pos rfl]
    · rw [Claims.owner?_claim_sign, if_pos rfl]
    · intro index hlt
      rw [Claims.operation?_claim_sign, if_neg (by omega)]
    · intro index hlt
      rw [Claims.owner?_claim_sign, if_neg (by omega)]
    · rw [Claims.owner?_claim_sign, if_neg (by omega)]
  spans := ⟨rfl, h.spans⟩
  matched := by
    intro frame hframe
    rcases List.mem_cons.1 hframe with rfl | hframe
    · exact ⟨placed, htoken, hop⟩
    · exact h.matched frame hframe
  ordered := ⟨trivial, fun _ _ => trivial, h.ordered⟩
  signsBind := List.forall_mem_cons.2 ⟨trivial, h.signsBind⟩
  operators index operation hoperation := by
    rw [Claims.operation?_claim_sign] at hoperation
    by_cases heq : hole = index
    · exact heq ▸ ⟨placed, htoken, Token.isOperator_of_unary? hop⟩
    · rw [if_neg heq] at hoperation
      exact h.operators index operation hoperation
  fresh index hlt := by
    rw [Claims.owner?_claim_sign, if_neg (by omega)]
    exact h.fresh index (by omega)
  ended hfirst := by
    obtain ⟨index, hlt, hnone⟩ := h.ended hfirst
    have := h.spans.first_le
    exact ⟨index, hlt, by rw [Claims.owner?_claim_sign, if_neg (by omega), hnone]⟩

section Operator

variable {op : BinaryOperator} {tree : Expr}

/-- The links of a spine after an operator has claimed what stands below it: the
operator stands in its place. -/
theorem recorded_claim {last : Located} {start claimant priority : Nat}
    (hspine : Spine.Recorded claims spine last.root) (hspans : Spine.Spans first spine start)
    (hlast : last.Spans start claimant)
    (htop : claims.topmost priority (claimant - 1) = last.root)
    (hfree : claims.owner? claimant = none) :
    Spine.Recorded (claims.claim claimant priority true) spine claimant := by
  have hbounds := hlast.root_bounds
  have howner : ∀ index < start,
      (claims.claim claimant priority true).owner? index = claims.owner? index := by
    intro index hlt
    rw [Claims.owner?_claim_operator, htop, if_neg (by omega), if_neg (by omega)]
  have hclaimant : (claims.claim claimant priority true).owner? claimant =
      claims.owner? last.root := by
    rw [Claims.owner?_claim_operator, htop, if_neg (by omega), if_pos rfl, hfree, Option.or_none]
  have hoperation : ∀ index < start, claims.owner? last.root ≠ some index →
      (claims.claim claimant priority true).operation? index = claims.operation? index := by
    intro index hlt hne
    rw [Claims.operation?_claim_operator, htop, if_neg (by omega), if_neg hne]
  have hparent : ∀ index < start, claims.owner? last.root = some index →
      (claims.claim claimant priority true).operation? index =
        (claims.operation? index).map (Claims.substitute last.root claimant) := by
    intro index hlt heq
    rw [Claims.operation?_claim_operator, htop, if_neg (by omega), if_pos heq]
  cases spine with
  | nil => exact hclaimant.trans hspine
  | cons frame outer =>
      cases frame with
      | sign index sign =>
          obtain ⟨rfl, houter⟩ := hspans
          obtain ⟨hop, howned, hrest⟩ := hspine
          refine ⟨?_, hclaimant.trans howned, hrest.congr houter ?_ ?_ ?_⟩
          · rw [hparent index (Nat.lt_succ_self _) howned, hop]
            simp [Claims.substitute]
          · intro other hlt
            exact hoperation other (by omega) (by rw [howned]; simp; omega)
          · exact fun other hlt => howner other (by omega)
          · exact howner index (Nat.lt_succ_self _)
      | operator index above left =>
          obtain ⟨rfl, low, hleftSpan, houter⟩ := hspans
          obtain ⟨hop, hleftOwned, howned, hleft, hrest⟩ := hspine
          have hleftBounds := hleftSpan.root_bounds
          refine ⟨?_, ?_, hclaimant.trans howned, hleft.congr hleftSpan ?_ ?_,
            hrest.congr houter ?_ ?_ ?_⟩
          · have hne : left.root ≠ last.root := by omega
            rw [hparent index (Nat.lt_succ_self _) howned, hop]
            simp [Claims.substitute, hne]
          · rw [howner left.root (by omega), hleftOwned]
          · intro other _ hlt
            exact hoperation other (by omega) (by rw [howned]; simp; omega)
          · exact fun other _ hlt _ => howner other (by omega)
          · intro other hlt
            exact hoperation other (by omega) (by rw [howned]; simp; omega)
          · exact fun other hlt => howner other (by omega)
          · exact howner index (Nat.lt_succ_self _)

/-- An operator behind a value claims what the spine closes down to its priority. -/
theorem operator {placed : Placed} (h : Standing tokens claims first spine hole)
    (hvalue : (Located.leaf hole tree).Matches tokens)
    (htoken : tokens[hole + 1]? = some placed) (hop : placed.token.binary? = some op) :
    Standing tokens (claims.claim (hole + 1) op.priority true) first
      (.operator (hole + 1) op (Spine.reduce op.priority (.leaf hole tree) spine).2 ::
        (Spine.reduce op.priority (.leaf hole tree) spine).1) (hole + 2) := by
  have hleaf : (Located.leaf hole tree).Spans hole (hole + 1) := ⟨rfl, rfl⟩
  have hleafRecorded : (Located.leaf hole tree).Recorded claims := trivial
  have htop : claims.topmost op.priority (hole + 1 - 1) =
      (Spine.reduce op.priority (.leaf hole tree) spine).2.root :=
    Spine.Recorded.topmost_eq h.recorded hleafRecorded h.spans hleaf op.priority
  obtain ⟨hspine, hlast⟩ := Spine.Recorded.reduce h.recorded hleafRecorded op.priority
  obtain ⟨start, hspans, hlastSpans⟩ := h.spans.reduce hleaf op.priority
  obtain ⟨hmatches, hlastMatches⟩ := h.matched.reduce hvalue op.priority
  obtain ⟨hsigns, hlastSigns⟩ := h.signsBind.reduce (h.fits tree) trivial op.priority
  have hfits := (h.fits tree).reduce op.priority
  have hleafBinds : (Located.leaf hole tree).arrangement.BindsAtLeast op.priority := trivial
  have hbinds := Spine.bindsAtLeast_reduce spine hleafBinds
  have hhead := Spine.priority_lt_of_mem_head?_reduce op.priority (.leaf hole tree) spine
  generalize (Spine.reduce op.priority (.leaf hole tree) spine).1 = outer at *
  generalize (Spine.reduce op.priority (.leaf hole tree) spine).2 = last at *
  have hbounds := hlastSpans.root_bounds
  have hfirst := hspans.first_le
  have hfree : claims.owner? (hole + 1) = none := h.fresh (hole + 1) (Nat.lt_succ_self _)
  have howner : ∀ index ≤ hole, index ≠ last.root →
      (claims.claim (hole + 1) op.priority true).owner? index = claims.owner? index := by
    intro index hle hne
    rw [Claims.owner?_claim_operator, htop, if_neg (by omega), if_neg (by omega)]
  have hbelow : ∀ index, claims.owner? last.root = some index → index < start := by
    intro index howned
    cases outer with
    | nil => exact absurd (howned.symm.trans hspine) (by simp)
    | cons frame rest =>
        have heq := howned.symm.trans hspine.owner?_eq
        have := hspans.index_lt
        simp only [Option.some.injEq] at heq
        omega
  constructor
  case recorded =>
    refine ⟨?_, ?_, ?_, hlast.congr hlastSpans ?_ ?_, ?_⟩
    · rw [Claims.operation?_claim_operator, if_pos rfl, htop]
    · rw [Claims.owner?_claim_operator, htop, if_pos (Or.inr rfl)]
    · rw [Claims.owner?_claim_operator, if_pos (Or.inl rfl)]
    · intro index hlow hhigh
      have hne : claims.owner? last.root ≠ some index := fun howned =>
        absurd (hbelow index howned) (by omega)
      rw [Claims.operation?_claim_operator, htop, if_neg (by omega), if_neg hne]
    · exact fun index _ hhigh hne => howner index (by omega) hne
    · exact recorded_claim hspine hspans hlastSpans htop hfree
  case spans => exact ⟨rfl, start, hlastSpans, hspans⟩
  case matched =>
    intro frame hframe
    rcases List.mem_cons.1 hframe with rfl | hframe
    · exact ⟨⟨placed, htoken, hop⟩, hlastMatches⟩
    · exact hmatches frame hframe
  case ordered => exact ⟨⟨hfits.closed, hbinds⟩, hhead, hfits.ordered⟩
  case signsBind => exact List.forall_mem_cons.2 ⟨hlastSigns, hsigns⟩
  case operators =>
    intro index operation hoperation
    rw [Claims.operation?_claim_operator] at hoperation
    by_cases heq : hole + 1 = index
    · exact heq ▸ ⟨placed, htoken, by rw [Token.isOperator, hop]; rfl⟩
    · rw [if_neg heq] at hoperation
      split at hoperation
      · obtain ⟨before, hbefore, _⟩ := Option.map_eq_some_iff.1 hoperation
        exact h.operators index before hbefore
      · exact h.operators index operation hoperation
  case fresh =>
    intro index hlt
    rw [Claims.owner?_claim_operator, htop, if_neg (by omega), if_neg (by omega)]
    exact h.fresh index (by omega)
  case ended =>
    intro hpos
    obtain ⟨index, hlt, hnone⟩ := h.ended hpos
    exact ⟨index, hlt, (howner index (by omega) (by omega)).trans hnone⟩

end Operator

/-- A value behind a value begins a tree of its own. -/
theorem restart (tree : Expr) (h : Standing tokens claims first spine hole) :
    Standing tokens claims (hole + 1) [] (hole + 1) where
  recorded := h.fresh (hole + 1) (Nat.lt_succ_self _)
  spans := rfl
  matched := by simp [Spine.Matches]
  ordered := trivial
  signsBind := nofun
  operators := h.operators
  fresh index hlt := h.fresh index (by omega)
  ended _ := by
    have hleaf : (Located.leaf hole tree).Spans hole (hole + 1) := ⟨rfl, rfl⟩
    have hleafRecorded : (Located.leaf hole tree).Recorded claims := trivial
    have hplug := Spine.Recorded.plug h.recorded hleafRecorded
    exact ⟨_, (h.spans.plug hleaf).root_bounds.2, hplug.2⟩

end Standing

end Formula
