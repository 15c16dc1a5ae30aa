/-
Trees over the indices of tokens, and their right spines.  A scan from left to right
holds a tree whose last operand is still open; the operators above the open place,
the innermost first, form a spine.  A new operator takes off the innermost of them
that bind at least as tightly and goes below the rest.
-/
import Formula.Proofs.Precedence.Arrangement
import Formula.Token.Basic

namespace Formula

/-- A tree that knows which token every node comes from. -/
inductive Located where
  | leaf (index : Nat) (tree : Expr)
  | sign (index : Nat) (op : UnaryOperator) (operand : Located)
  | operator (index : Nat) (op : BinaryOperator) (left right : Located)

namespace Located

/-- The index of the token at the top. -/
def root : Located → Nat
  | leaf index _ => index
  | sign index _ _ => index
  | operator index _ _ _ => index

@[simp] theorem root_sign (index : Nat) (op : UnaryOperator) (operand : Located) :
    (sign index op operand).root = index := rfl

@[simp] theorem root_operator (index : Nat) (op : BinaryOperator) (left right : Located) :
    (operator index op left right).root = index := rfl

def expr : Located → Expr
  | leaf _ tree => tree
  | sign _ op operand => .unary op operand.expr
  | operator _ op left right => .binary op left.expr right.expr

def arrangement : Located → Arrangement
  | operator _ op left right => .operator op left.arrangement right.arrangement
  | operand => .operand operand.expr

theorem expr_arrangement (tree : Located) : tree.arrangement.expr = tree.expr := by
  induction tree with
  | leaf index tree => rfl
  | sign index op operand => rfl
  | operator index op left right ihleft ihright =>
      simp [arrangement, Arrangement.expr, expr, ihleft, ihright]

/-- The nodes come from the tokens from `first` up to `stop`, read in order. -/
def Spans : Located → Nat → Nat → Prop
  | leaf index _, first, stop => first = index ∧ stop = index + 1
  | sign index _ operand, first, stop => first = index ∧ operand.Spans (index + 1) stop
  | operator index _ left right, first, stop =>
      left.Spans first index ∧ right.Spans (index + 1) stop

theorem Spans.root_bounds {tree : Located} {first stop : Nat} (h : tree.Spans first stop) :
    first ≤ tree.root ∧ tree.root < stop := by
  induction tree generalizing first stop with
  | leaf index tree =>
      obtain ⟨rfl, rfl⟩ := h
      exact ⟨Nat.le_refl _, Nat.lt_succ_self _⟩
  | sign index op operand ih =>
      obtain ⟨rfl, h⟩ := h
      have := ih h
      simp only [root_sign]
      omega
  | operator index op left right ihleft ihright =>
      obtain ⟨hleft, hright⟩ := h
      have := ihleft hleft
      have := ihright hright
      simp only [root_operator]
      omega

/-- The indices of a tree from left to right. -/
def inorder : Located → List Nat
  | leaf index _ => [index]
  | sign index _ operand => index :: operand.inorder
  | operator index _ left right => left.inorder ++ index :: right.inorder

theorem Spans.inorder_eq {tree : Located} {start stop : Nat} (h : tree.Spans start stop) :
    tree.inorder = List.range' start (stop - start) := by
  induction tree generalizing start stop with
  | leaf index tree =>
      obtain ⟨rfl, rfl⟩ := h
      simp [inorder]
  | sign index op operand ih =>
      obtain ⟨rfl, hspan⟩ := h
      have hbounds := hspan.root_bounds
      have hlength : stop - start = stop - (start + 1) + 1 := by omega
      rw [inorder, ih hspan, hlength, List.range'_succ]
  | operator index op left right ihleft ihright =>
      obtain ⟨hleft, hright⟩ := h
      have hleftBounds := hleft.root_bounds
      have hrightBounds := hright.root_bounds
      have hlength : stop - start = (index - start) + (stop - (index + 1) + 1) := by omega
      have hindex : start + (index - start) = index := by omega
      rw [inorder, ihleft hleft, ihright hright, hlength, ← List.range'_append_1, hindex,
        List.range'_succ]

/-- Every node is what its token says. -/
def Matches (tokens : List Placed) : Located → Prop
  | leaf index tree => ∃ placed, tokens[index]? = some placed ∧ placed.token.tree? = some tree
  | sign index op operand =>
      (∃ placed, tokens[index]? = some placed ∧ placed.token.unary? = some op) ∧
        operand.Matches tokens
  | operator index op left right =>
      (∃ placed, tokens[index]? = some placed ∧ placed.token.binary? = some op) ∧
        left.Matches tokens ∧ right.Matches tokens

/-- Whether an operator stands at the top. -/
def isOperator : Located → Bool
  | operator _ _ _ _ => true
  | _ => false

/-- Signs bind tighter than operators, so no operator stands below a sign. -/
def SignsBind : Located → Prop
  | leaf _ _ => True
  | sign _ _ operand => operand.isOperator = false ∧ operand.SignsBind
  | operator _ _ left right => left.SignsBind ∧ right.SignsBind

end Located

/-- An operator whose last operand is still open. -/
inductive Frame where
  | sign (index : Nat) (op : UnaryOperator)
  | operator (index : Nat) (op : BinaryOperator) (left : Located)

namespace Frame

def index : Frame → Nat
  | sign index _ => index
  | operator index _ _ => index

def priority : Frame → Nat
  | sign _ _ => UnaryOperator.priority
  | operator _ op _ => op.priority

def isBinary : Frame → Bool
  | sign _ _ => false
  | operator _ _ _ => true

/-- Closes the open operand. -/
def plug (last : Located) : Frame → Located
  | sign index op => .sign index op last
  | operator index op left => .operator index op left last

@[simp] theorem root_plug (frame : Frame) (last : Located) :
    (frame.plug last).root = frame.index := by
  cases frame <;> rfl

/-- The operand in front of the operator keeps precedence. -/
def LeftOrdered : Frame → Prop
  | sign _ _ => True
  | operator _ op left => left.arrangement.Ordered ∧ left.arrangement.BindsAtLeast op.priority

/-- What may stand in the open place. -/
def Admits (last : Arrangement) : Frame → Prop
  | sign _ _ => ∃ tree, last = .operand tree
  | operator _ op _ => last.BindsAtLeast (op.priority + 1)

/-- Whether a frame may stand in the open place of another one. -/
def Below (frame outer : Frame) : Prop :=
  match frame with
  | sign _ _ => True
  | operator _ op _ => outer.priority < op.priority

def Matches (tokens : List Placed) : Frame → Prop
  | sign index op => ∃ placed, tokens[index]? = some placed ∧ placed.token.unary? = some op
  | operator index op left =>
      (∃ placed, tokens[index]? = some placed ∧ placed.token.binary? = some op) ∧
        left.Matches tokens

theorem admits_operand (frame : Frame) (tree : Expr) : frame.Admits (.operand tree) := by
  cases frame with
  | sign index op => exact ⟨tree, rfl⟩
  | operator index op left => trivial

/-- No operator stands in the open place of a sign. -/
theorem Below.isBinary {frame outer : Frame} (h : frame.Below outer)
    (hbinary : frame.isBinary = true) :
    outer.isBinary = true ∧ outer.priority < frame.priority := by
  cases frame with
  | sign index op => cases hbinary
  | operator index op left =>
      cases outer with
      | sign outerIndex outerOp =>
          have hbound := op.priority_lt_unary
          simp only [Below, priority] at h
          omega
      | operator outerIndex outerOp outerLeft => exact ⟨rfl, h⟩

theorem Below.admits_plug {frame outer : Frame} (h : frame.Below outer) (last : Located) :
    outer.Admits (frame.plug last).arrangement := by
  cases frame with
  | sign index op => exact admits_operand outer _
  | operator index op left =>
      cases outer with
      | sign outerIndex outerOp => cases (h.isBinary rfl).1
      | operator outerIndex outerOp outerLeft => exact h

theorem ordered_plug {frame : Frame} {last : Located} (hleft : frame.LeftOrdered)
    (hadmits : frame.Admits last.arrangement) (hlast : last.arrangement.Ordered) :
    (frame.plug last).arrangement.Ordered := by
  cases frame with
  | sign index op => trivial
  | operator index op left => exact ⟨hleft.1, hlast, hleft.2, hadmits⟩

theorem bindsAtLeast_plug {frame : Frame} {priority : Nat} (h : priority ≤ frame.priority)
    (last : Located) : (frame.plug last).arrangement.BindsAtLeast priority := by
  cases frame with
  | sign index op => trivial
  | operator index op left => exact h

theorem matches_plug {frame : Frame} {last : Located} {tokens : List Placed}
    (hframe : frame.Matches tokens) (hlast : last.Matches tokens) :
    (frame.plug last).Matches tokens := by
  cases frame with
  | sign index op => exact ⟨hframe, hlast⟩
  | operator index op left => exact ⟨hframe.1, hframe.2, hlast⟩

def SignsBind : Frame → Prop
  | sign _ _ => True
  | operator _ _ left => left.SignsBind

theorem signsBind_plug {frame : Frame} {last : Located} (hframe : frame.SignsBind)
    (hadmits : frame.Admits last.arrangement) (hlast : last.SignsBind) :
    (frame.plug last).SignsBind := by
  cases frame with
  | sign index op =>
      obtain ⟨tree, htree⟩ := hadmits
      cases last with
      | operator lastIndex lastOp left right => cases htree
      | _ => exact ⟨rfl, hlast⟩
  | operator index op left => exact ⟨hframe, hlast⟩

end Frame

/-- The operators above an open place, the innermost first. -/
abbrev Spine := List Frame

namespace Spine

/-- Closes all open operands. -/
def plug (last : Located) : Spine → Located
  | [] => last
  | frame :: outer => plug (frame.plug last) outer

/-- Takes off the operators that bind at least as tightly as a priority. -/
def reduce (priority : Nat) (last : Located) : Spine → Spine × Located
  | [] => ([], last)
  | frame :: outer =>
      if priority ≤ frame.priority then reduce priority (frame.plug last) outer
      else (frame :: outer, last)

theorem plug_reduce (priority : Nat) (last : Located) (spine : Spine) :
    plug (reduce priority last spine).2 (reduce priority last spine).1 = plug last spine := by
  induction spine generalizing last with
  | nil => rfl
  | cons frame outer ih =>
      by_cases h : priority ≤ frame.priority
      · simpa [reduce, h, plug] using ih (frame.plug last)
      · simp [reduce, h]

/-- What is left on the spine is weaker than the priority. -/
theorem priority_lt_of_mem_head?_reduce (priority : Nat) (last : Located) (spine : Spine) :
    ∀ frame ∈ (reduce priority last spine).1.head?, frame.priority < priority := by
  induction spine generalizing last with
  | nil => simp [reduce]
  | cons frame outer ih =>
      by_cases h : priority ≤ frame.priority
      · simpa [reduce, h] using ih (frame.plug last)
      · simpa [reduce, h] using Nat.lt_of_not_le h

/-- A property of the closed operand and the spine that closing one more operand
keeps is kept by taking operators off. -/
theorem reduce_induction {motive : Spine → Located → Prop} {priority : Nat}
    (hstep : ∀ frame outer last, priority ≤ frame.priority →
      motive (frame :: outer) last → motive outer (frame.plug last))
    {spine : Spine} {last : Located} (h : motive spine last) :
    motive (reduce priority last spine).1 (reduce priority last spine).2 := by
  induction spine generalizing last with
  | nil => exact h
  | cons frame outer ih =>
      by_cases hbinds : priority ≤ frame.priority
      · simpa [reduce, hbinds] using ih (hstep frame outer last hbinds h)
      · simpa [reduce, hbinds] using h

/-- Every operator of the spine is tighter than the one around it. -/
def Ordered : Spine → Prop
  | [] => True
  | frame :: outer =>
      frame.LeftOrdered ∧ (∀ next ∈ outer.head?, frame.Below next) ∧ Ordered outer

/-- An ordered spine and what may close its open place. -/
structure Fits (spine : Spine) (last : Located) : Prop where
  ordered : Ordered spine
  closed : last.arrangement.Ordered
  admits : ∀ frame ∈ spine.head?, frame.Admits last.arrangement

theorem Fits.plug_frame {frame : Frame} {outer : Spine} {last : Located}
    (h : Fits (frame :: outer) last) : Fits outer (frame.plug last) where
  ordered := h.ordered.2.2
  closed := Frame.ordered_plug h.ordered.1 (h.admits frame rfl) h.closed
  admits next hnext := (h.ordered.2.1 next hnext).admits_plug last

theorem Fits.ordered_plug {spine : Spine} {last : Located} (h : Fits spine last) :
    (plug last spine).arrangement.Ordered := by
  induction spine generalizing last with
  | nil => exact h.closed
  | cons frame outer ih => exact ih h.plug_frame

theorem Fits.reduce {spine : Spine} {last : Located} (h : Fits spine last) (priority : Nat) :
    Fits (reduce priority last spine).1 (reduce priority last spine).2 :=
  reduce_induction (fun _ _ _ _ h => h.plug_frame) h

theorem bindsAtLeast_reduce {priority : Nat} {last : Located} (spine : Spine)
    (h : last.arrangement.BindsAtLeast priority) :
    (reduce priority last spine).2.arrangement.BindsAtLeast priority :=
  reduce_induction (motive := fun _ last => last.arrangement.BindsAtLeast priority)
    (fun _ _ last hbinds _ => Frame.bindsAtLeast_plug hbinds last) h

/-- The open place is at `stop`, and all nodes come from the tokens in front of it,
from `first` on. -/
def Spans (first : Nat) : Spine → Nat → Prop
  | [], stop => first = stop
  | .sign index _ :: outer, stop => stop = index + 1 ∧ Spans first outer index
  | .operator index _ left :: outer, stop =>
      stop = index + 1 ∧ ∃ start, left.Spans start index ∧ Spans first outer start

theorem Spans.plug_frame {first middle stop : Nat} {frame : Frame} {outer : Spine}
    {last : Located} (h : Spans first (frame :: outer) middle) (hlast : last.Spans middle stop) :
    ∃ start, Spans first outer start ∧ (frame.plug last).Spans start stop := by
  cases frame with
  | sign index op =>
      obtain ⟨rfl, houter⟩ := h
      exact ⟨index, houter, rfl, hlast⟩
  | operator index op left =>
      obtain ⟨rfl, start, hleft, houter⟩ := h
      exact ⟨start, houter, hleft, hlast⟩

theorem Spans.plug {first middle stop : Nat} {spine : Spine} {last : Located}
    (h : Spans first spine middle) (hlast : last.Spans middle stop) :
    (Spine.plug last spine).Spans first stop := by
  induction spine generalizing middle last with
  | nil =>
      obtain rfl : first = middle := h
      exact hlast
  | cons frame outer ih =>
      obtain ⟨start, houter, hplug⟩ := h.plug_frame hlast
      exact ih houter hplug

theorem Spans.first_le {first stop : Nat} {spine : Spine} (h : Spans first spine stop) :
    first ≤ stop := by
  induction spine generalizing stop with
  | nil => exact Nat.le_of_eq h
  | cons frame outer ih =>
      cases frame with
      | sign index op =>
          obtain ⟨rfl, houter⟩ := h
          exact Nat.le_succ_of_le (ih houter)
      | operator index op left =>
          obtain ⟨rfl, start, hleft, houter⟩ := h
          have := ih houter
          have := hleft.root_bounds
          omega

theorem Spans.reduce {first middle stop : Nat} {spine : Spine} {last : Located}
    (h : Spans first spine middle) (hlast : last.Spans middle stop) (priority : Nat) :
    ∃ start, Spans first (reduce priority last spine).1 start ∧
      (Spine.reduce priority last spine).2.Spans start stop :=
  reduce_induction
    (motive := fun spine last => ∃ start, Spans first spine start ∧ last.Spans start stop)
    (fun _ _ _ _ ⟨_, hspine, hlast⟩ => hspine.plug_frame hlast) ⟨middle, h, hlast⟩

def Matches (tokens : List Placed) (spine : Spine) : Prop :=
  ∀ frame ∈ spine, frame.Matches tokens

theorem Matches.plug {tokens : List Placed} {spine : Spine} {last : Located}
    (h : Matches tokens spine) (hlast : last.Matches tokens) :
    (Spine.plug last spine).Matches tokens := by
  induction spine generalizing last with
  | nil => exact hlast
  | cons frame outer ih =>
      exact ih (fun next hnext => h next (List.mem_cons_of_mem frame hnext))
        (Frame.matches_plug (h frame List.mem_cons_self) hlast)

theorem Matches.reduce {tokens : List Placed} {spine : Spine} {last : Located}
    (h : Matches tokens spine) (hlast : last.Matches tokens) (priority : Nat) :
    Matches tokens (reduce priority last spine).1 ∧
      (Spine.reduce priority last spine).2.Matches tokens :=
  reduce_induction (motive := fun spine last => Matches tokens spine ∧ last.Matches tokens)
    (fun frame _ _ _ h => ⟨fun next hnext => h.1 next (List.mem_cons_of_mem frame hnext),
      Frame.matches_plug (h.1 frame List.mem_cons_self) h.2⟩) ⟨h, hlast⟩

def SignsBind (spine : Spine) : Prop := ∀ frame ∈ spine, frame.SignsBind

theorem SignsBind.plug_frame {frame : Frame} {outer : Spine} {last : Located}
    (h : SignsBind (frame :: outer)) (hfits : Fits (frame :: outer) last) (hlast : last.SignsBind) :
    SignsBind outer ∧ (frame.plug last).SignsBind :=
  ⟨fun next hnext => h next (List.mem_cons_of_mem frame hnext),
    Frame.signsBind_plug (h frame List.mem_cons_self) (hfits.admits frame rfl) hlast⟩

theorem SignsBind.plug {spine : Spine} {last : Located} (h : SignsBind spine)
    (hfits : Fits spine last) (hlast : last.SignsBind) : (Spine.plug last spine).SignsBind := by
  induction spine generalizing last with
  | nil => exact hlast
  | cons frame outer ih =>
      obtain ⟨houter, hplug⟩ := h.plug_frame hfits hlast
      exact ih houter hfits.plug_frame hplug

theorem SignsBind.reduce {spine : Spine} {last : Located} (h : SignsBind spine)
    (hfits : Fits spine last) (hlast : last.SignsBind) (priority : Nat) :
    SignsBind (reduce priority last spine).1 ∧ (Spine.reduce priority last spine).2.SignsBind := by
  let Kept (spine : Spine) (last : Located) : Prop :=
    Fits spine last ∧ SignsBind spine ∧ last.SignsBind
  have hall : Kept (Spine.reduce priority last spine).1 (Spine.reduce priority last spine).2 :=
    reduce_induction (fun _ _ _ _ ⟨hfits, h, hlast⟩ =>
      ⟨hfits.plug_frame, h.plug_frame hfits hlast⟩) ⟨hfits, h, hlast⟩
  exact hall.2

/-- Below a spine of binary operators, one more operand is one more operand of the
whole. -/
theorem chain_plug_push {spine : Spine} {priority : Nat} (hordered : spine.Ordered)
    (hbound : priority ≤ UnaryOperator.priority)
    (hhead : ∀ frame ∈ spine.head?, frame.priority < priority)
    {last next : Located} {op : BinaryOperator} {operand : Expr}
    (h : next.arrangement.chain = last.arrangement.chain.push op operand) :
    (plug next spine).arrangement.chain = (plug last spine).arrangement.chain.push op operand := by
  induction spine generalizing last next priority with
  | nil => exact h
  | cons frame outer ih =>
      have hframe := hhead frame rfl
      cases frame with
      | sign index sign =>
          simp only [Frame.priority] at hframe
          omega
      | operator index above left =>
          refine ih hordered.2.2 (Nat.le_of_lt above.priority_lt_unary) hordered.2.1 ?_
          change left.arrangement.chain.join above next.arrangement.chain =
            (left.arrangement.chain.join above last.arrangement.chain).push op operand
          rw [h, Chain.push_join]

end Spine

end Formula
