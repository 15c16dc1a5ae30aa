/-
What the operators of a scan have claimed, as a tree with an open spine.  A state
of the scan stands for a spine when it holds the links of the spine and nothing
above the open place; every operator that is taken in keeps this, so that climbing
over owners is taking operators off the spine.
-/
import Formula.Precedence.Claims
import Formula.Proofs.Precedence.Spine

namespace Formula

namespace Claims

theorem owner?_claimRight (claims : Claims) (claimant : Nat) (operation : Operation)
    (index : Nat) :
    (claims.claimRight claimant operation).owner? index =
      if claimant + 1 = index then some claimant else claims.owner? index := by
  simp [claimRight, owner?, Std.TreeMap.getElem?_insert]

theorem operation?_claimRight (claims : Claims) (claimant : Nat) (operation : Operation)
    (index : Nat) :
    (claims.claimRight claimant operation).operation? index =
      if claimant = index then some operation else claims.operation? index := by
  simp [claimRight, operation?, Std.TreeMap.getElem?_insert]

theorem owner?_replace (claims : Claims) (operand claimant index : Nat) :
    (claims.replace operand claimant).owner? index =
      if claimant = index then (claims.owner? operand).or (claims.owner? index)
      else claims.owner? index := by
  unfold replace
  cases howner : claims.owner? operand with
  | none => simp
  | some owner => simp [owner?, Std.TreeMap.getElem?_insert]

/-- An operation with one of its operands replaced. -/
def substitute (operand claimant : Nat) (operation : Operation) : Operation :=
  { operation with
    operands := operation.operands.map fun slot => if slot = operand then claimant else slot }

theorem operation?_replace (claims : Claims) (operand claimant index : Nat) :
    (claims.replace operand claimant).operation? index =
      if claims.owner? operand = some index then
        (claims.operation? index).map (substitute operand claimant)
      else claims.operation? index := by
  unfold replace
  cases howner : claims.owner? operand with
  | none => simp
  | some owner =>
      by_cases h : owner = index
      · subst h
        simp [operation?]
        rfl
      · simp [operation?, Std.TreeMap.getElem?_modify, h]

theorem owner?_claim_sign (claims : Claims) (claimant priority index : Nat) :
    (claims.claim claimant priority false).owner? index =
      if claimant + 1 = index then some claimant else claims.owner? index :=
  owner?_claimRight claims claimant _ index

theorem operation?_claim_sign (claims : Claims) (claimant priority index : Nat) :
    (claims.claim claimant priority false).operation? index =
      if claimant = index then some ⟨false, priority, [claimant + 1]⟩
      else claims.operation? index :=
  operation?_claimRight claims claimant _ index

theorem owner?_claimLeft (claims : Claims) (claimant priority index : Nat) :
    (claims.claimLeft claimant priority).1.owner? index =
      if claims.topmost priority (claimant - 1) = index then some claimant
      else if claimant = index then
        (claims.owner? (claims.topmost priority (claimant - 1))).or (claims.owner? index)
      else claims.owner? index := by
  rw [← owner?_replace]
  simp [claimLeft, owner?, Std.TreeMap.getElem?_insert]

theorem owner?_claim_operator (claims : Claims) (claimant priority index : Nat) :
    (claims.claim claimant priority true).owner? index =
      if claimant + 1 = index ∨ claims.topmost priority (claimant - 1) = index then some claimant
      else if claimant = index then
        (claims.owner? (claims.topmost priority (claimant - 1))).or (claims.owner? index)
      else claims.owner? index := by
  change ((claims.claimLeft claimant priority).1.claimRight claimant _).owner? index = _
  rw [owner?_claimRight, owner?_claimLeft]
  by_cases hright : claimant + 1 = index <;> simp [hright]

theorem operation?_claim_operator (claims : Claims) (claimant priority index : Nat) :
    (claims.claim claimant priority true).operation? index =
      if claimant = index then
        some ⟨true, priority, [claims.topmost priority (claimant - 1), claimant + 1]⟩
      else if claims.owner? (claims.topmost priority (claimant - 1)) = some index then
        (claims.operation? index).map
          (substitute (claims.topmost priority (claimant - 1)) claimant)
      else claims.operation? index := by
  change ((claims.claimLeft claimant priority).1.claimRight claimant _).operation? index = _
  rw [operation?_claimRight]
  change (if claimant = index then _ else
    (claims.replace (claims.topmost priority (claimant - 1)) claimant).operation? index) = _
  rw [operation?_replace]

end Claims

namespace Located

/-- The claims hold all links of the tree. -/
def Recorded (claims : Claims) : Located → Prop
  | leaf _ _ => True
  | sign index _ operand =>
      claims.operation? index = some ⟨false, UnaryOperator.priority, [operand.root]⟩ ∧
        claims.owner? operand.root = some index ∧ operand.Recorded claims
  | operator index op left right =>
      claims.operation? index = some ⟨true, op.priority, [left.root, right.root]⟩ ∧
        claims.owner? left.root = some index ∧ claims.owner? right.root = some index ∧
          left.Recorded claims ∧ right.Recorded claims

/-- Claims made elsewhere do not touch a tree; its top may find an owner. -/
theorem Recorded.congr {claims other : Claims} {tree : Located} {first stop : Nat}
    (h : tree.Recorded claims) (hspans : tree.Spans first stop)
    (hoperation : ∀ index, first ≤ index → index < stop →
      other.operation? index = claims.operation? index)
    (howner : ∀ index, first ≤ index → index < stop → index ≠ tree.root →
      other.owner? index = claims.owner? index) :
    tree.Recorded other := by
  induction tree generalizing first stop with
  | leaf index tree => trivial
  | sign index op operand ih =>
      obtain ⟨rfl, hspan⟩ := hspans
      obtain ⟨hop, howned, hoperand⟩ := h
      have hbounds := hspan.root_bounds
      refine ⟨?_, ?_, ih hoperand hspan ?_ ?_⟩
      · rw [hoperation first (Nat.le_refl _) (by omega), hop]
      · rw [howner operand.root (by omega) hbounds.2 (by simp only [root_sign]; omega), howned]
      · exact fun other hlow hhigh => hoperation other (by omega) hhigh
      · exact fun other hlow hhigh _ =>
          howner other (by omega) hhigh (by simp only [root_sign]; omega)
  | operator index op left right ihleft ihright =>
      obtain ⟨hleftSpan, hrightSpan⟩ := hspans
      obtain ⟨hop, hleftOwned, hrightOwned, hleft, hright⟩ := h
      have hleftBounds := hleftSpan.root_bounds
      have hrightBounds := hrightSpan.root_bounds
      refine ⟨?_, ?_, ?_, ihleft hleft hleftSpan ?_ ?_, ihright hright hrightSpan ?_ ?_⟩
      · rw [hoperation index (by omega) (by omega), hop]
      · rw [howner left.root hleftBounds.1 (by omega) (by simp only [root_operator]; omega),
          hleftOwned]
      · rw [howner right.root (by omega) hrightBounds.2 (by simp only [root_operator]; omega),
          hrightOwned]
      · exact fun other hlow hhigh => hoperation other hlow (by omega)
      · exact fun other hlow hhigh _ =>
          howner other hlow (by omega) (by simp only [root_operator]; omega)
      · exact fun other hlow hhigh => hoperation other (by omega) hhigh
      · exact fun other hlow hhigh _ =>
          howner other (by omega) hhigh (by simp only [root_operator]; omega)

end Located

namespace Spine

/-- The claims hold all links of the spine, where `hole` is at the top of what
stands in the open place.  Nothing owns the top of the whole. -/
def Recorded (claims : Claims) : Spine → Nat → Prop
  | [], hole => claims.owner? hole = none
  | .sign index _ :: outer, hole =>
      claims.operation? index = some ⟨false, UnaryOperator.priority, [hole]⟩ ∧
        claims.owner? hole = some index ∧ Recorded claims outer index
  | .operator index op left :: outer, hole =>
      claims.operation? index = some ⟨true, op.priority, [left.root, hole]⟩ ∧
        claims.owner? left.root = some index ∧ claims.owner? hole = some index ∧
          left.Recorded claims ∧ Recorded claims outer index

theorem Recorded.congr {claims other : Claims} {spine : Spine} {first stop hole : Nat}
    (h : Recorded claims spine hole) (hspans : Spans first spine stop)
    (hoperation : ∀ index < stop, other.operation? index = claims.operation? index)
    (howner : ∀ index < stop, other.owner? index = claims.owner? index)
    (hhole : other.owner? hole = claims.owner? hole) :
    Recorded other spine hole := by
  induction spine generalizing stop hole with
  | nil => exact hhole.trans h
  | cons frame outer ih =>
      cases frame with
      | sign index op =>
          obtain ⟨rfl, houter⟩ := hspans
          obtain ⟨hop, howned, hrest⟩ := h
          refine ⟨?_, hhole.trans howned, ih hrest houter ?_ ?_ ?_⟩
          · rw [hoperation index (Nat.lt_succ_self _), hop]
          · exact fun other hlt => hoperation other (Nat.lt_succ_of_lt hlt)
          · exact fun other hlt => howner other (Nat.lt_succ_of_lt hlt)
          · exact howner index (Nat.lt_succ_self _)
      | operator index op left =>
          obtain ⟨rfl, start, hleftSpan, houter⟩ := hspans
          obtain ⟨hop, hleftOwned, howned, hleft, hrest⟩ := h
          have hbounds := hleftSpan.root_bounds
          refine ⟨?_, ?_, hhole.trans howned, hleft.congr hleftSpan ?_ ?_, ih hrest houter ?_ ?_ ?_⟩
          · rw [hoperation index (Nat.lt_succ_self _), hop]
          · rw [howner left.root (by omega), hleftOwned]
          · exact fun other _ hlt => hoperation other (Nat.lt_succ_of_lt hlt)
          · exact fun other _ hlt _ => howner other (Nat.lt_succ_of_lt hlt)
          · exact fun other hlt => hoperation other (by omega)
          · exact fun other hlt => howner other (by omega)
          · exact howner index (Nat.lt_succ_self _)

theorem Recorded.plug_frame {claims : Claims} {frame : Frame} {outer : Spine} {last : Located}
    (h : Recorded claims (frame :: outer) last.root) (hlast : last.Recorded claims) :
    Recorded claims outer (frame.plug last).root ∧ (frame.plug last).Recorded claims := by
  cases frame with
  | sign index op => exact ⟨h.2.2, h.1, h.2.1, hlast⟩
  | operator index op left => exact ⟨h.2.2.2.2, h.1, h.2.1, h.2.2.1, h.2.2.2.1, hlast⟩

theorem Recorded.plug {claims : Claims} {spine : Spine} {last : Located}
    (h : Recorded claims spine last.root) (hlast : last.Recorded claims) :
    (Spine.plug last spine).Recorded claims ∧
      claims.owner? (Spine.plug last spine).root = none := by
  induction spine generalizing last with
  | nil => exact ⟨hlast, h⟩
  | cons frame outer ih =>
      obtain ⟨houter, hplug⟩ := h.plug_frame hlast
      exact ih houter hplug

theorem Recorded.reduce {claims : Claims} {spine : Spine} {last : Located}
    (h : Recorded claims spine last.root) (hlast : last.Recorded claims) (priority : Nat) :
    Recorded claims (reduce priority last spine).1 (reduce priority last spine).2.root ∧
      (Spine.reduce priority last spine).2.Recorded claims :=
  reduce_induction
    (motive := fun spine last => Recorded claims spine last.root ∧ last.Recorded claims)
    (fun _ _ _ _ h => h.1.plug_frame h.2) ⟨h, hlast⟩

theorem Recorded.owner?_eq {claims : Claims} {frame : Frame} {outer : Spine} {hole : Nat}
    (h : Recorded claims (frame :: outer) hole) : claims.owner? hole = some frame.index := by
  cases frame with
  | sign index op => exact h.2.1
  | operator index op left => exact h.2.2.1

theorem Recorded.bindsAtLeast_eq {claims : Claims} {frame : Frame} {outer : Spine} {hole : Nat}
    (h : Recorded claims (frame :: outer) hole) (priority : Nat) :
    claims.bindsAtLeast priority frame.index = decide (priority ≤ frame.priority) := by
  cases frame with
  | sign index op => rw [Claims.bindsAtLeast, Frame.index, h.1]; rfl
  | operator index op left => rw [Claims.bindsAtLeast, Frame.index, h.1]; rfl

theorem Spans.index_lt {frame : Frame} {outer : Spine} {first stop : Nat}
    (h : Spans first (frame :: outer) stop) : frame.index + 1 = stop := by
  cases frame with
  | sign index op => exact h.1.symm
  | operator index op left => exact h.1.symm

/-- Climbing over owners takes operators off the spine. -/
theorem Recorded.topmost_eq {claims : Claims} {spine : Spine} {last : Located}
    {first start stop : Nat} (h : Recorded claims spine last.root)
    (hlast : last.Recorded claims) (hspans : Spans first spine start)
    (hlastSpans : last.Spans start stop) (priority : Nat) :
    claims.topmost priority last.root = (Spine.reduce priority last spine).2.root := by
  induction spine generalizing last start with
  | nil =>
      have hnone : claims.owner? last.root = none := h
      rw [Claims.topmost, hnone]
      rfl
  | cons frame outer ih =>
      obtain ⟨houter, hplug⟩ := h.plug_frame hlast
      obtain ⟨next, hnext, hplugSpans⟩ := hspans.plug_frame hlastSpans
      have hlt : frame.index < last.root := by
        have := hspans.index_lt
        have := hlastSpans.root_bounds
        omega
      rw [Claims.topmost, h.owner?_eq]
      simp only [hlt, true_and, h.bindsAtLeast_eq, decide_eq_true_eq]
      by_cases hbinds : priority ≤ frame.priority
      · have hclimb := ih houter hplug hnext hplugSpans
        rw [Frame.root_plug] at hclimb
        simpa [hbinds, Spine.reduce] using hclimb
      · simp [hbinds, Spine.reduce]

end Spine

end Formula
