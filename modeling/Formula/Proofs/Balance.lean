/-
Balanced parentheses.  Whatever the grammar reads closes what it opens, and nothing else.
-/
import Formula.Proofs.Collapse.Splitting

namespace Formula

/-- How many parentheses are open behind tokens, unless one of them closes a parenthesis
that has been opened before. -/
def openBehind (depth : Nat) : List Placed → Option Nat
  | [] => some depth
  | placed :: rest => (openAfter depth placed.token).bind (openBehind · rest)

theorem openBehind_cons (depth : Nat) (placed : Placed) (rest : List Placed) :
    openBehind depth (placed :: rest) =
      (openAfter depth placed.token).bind (openBehind · rest) := rfl

theorem openBehind_append (depth : Nat) (left right : List Placed) :
    openBehind depth (left ++ right) = (openBehind depth left).bind (openBehind · right) := by
  induction left generalizing depth with
  | nil => rfl
  | cons placed left ih =>
      rw [List.cons_append, openBehind_cons, openBehind_cons, Option.bind_assoc]
      apply congrArg (Option.bind (openAfter depth placed.token))
      funext inner
      exact ih inner

/-- More parentheses around the tokens stay open. -/
theorem openAfter_add {depth inner : Nat} {token : Token} (h : openAfter depth token = some inner)
    (more : Nat) : openAfter (depth + more) token = some (inner + more) := by
  cases token with
  | closeParen =>
      cases depth with
      | zero => cases h
      | succ depth =>
          obtain rfl := Option.some.inj h
          rw [Nat.succ_add]
          rfl
  | openParen =>
      obtain rfl := Option.some.inj h
      rw [Nat.succ_add]
      rfl
  | _ =>
      obtain rfl := Option.some.inj h
      rfl

theorem openBehind_add {depth inner : Nat} {tokens : List Placed}
    (h : openBehind depth tokens = some inner) (more : Nat) :
    openBehind (depth + more) tokens = some (inner + more) := by
  induction tokens generalizing depth with
  | nil =>
      obtain rfl := Option.some.inj h
      rfl
  | cons placed rest ih =>
      obtain ⟨next, hnext, hrest⟩ := Option.bind_eq_some_iff.1 h
      rw [openBehind_cons, openAfter_add hnext more]
      exact ih hrest

/-- All parentheses that are opened are closed, and no others. -/
def Balanced (tokens : List Placed) : Prop := openBehind 0 tokens = some 0

namespace Balanced

variable {tokens left right : List Placed}

theorem openBehind_eq (h : Balanced tokens) (depth : Nat) :
    openBehind depth tokens = some depth := by
  have hmore := openBehind_add h depth
  rwa [Nat.zero_add] at hmore

theorem append (hleft : Balanced left) (hright : Balanced right) : Balanced (left ++ right) := by
  rw [Balanced, openBehind_append, hleft]
  exact hright

theorem single {placed : Placed} (hopen : placed.token ≠ .openParen)
    (hclose : placed.token ≠ .closeParen) : Balanced [placed] := by
  rw [Balanced, openBehind_cons, openAfter_of_ne hopen hclose]
  rfl

/-- A token that is seen as something that no parenthesis is. -/
theorem seen {α : Type} (view : Token → Option α) (hopen : view .openParen = none)
    (hclose : view .closeParen = none) {placed : Placed} {found : α}
    (h : view placed.token = some found) : Balanced [placed] :=
  .single (Token.ne_of_view view hopen h) (Token.ne_of_view view hclose h)

theorem parentheses (h : Balanced tokens) (opening closing : Nat) :
    Balanced (⟨.openParen, opening⟩ :: (tokens ++ [⟨.closeParen, closing⟩])) := by
  rw [Balanced, openBehind_cons]
  change openBehind 1 (tokens ++ [⟨.closeParen, closing⟩]) = some 0
  rw [openBehind_append, h.openBehind_eq 1]
  rfl

/-- A front part of the tokens closes nothing that was opened before. -/
theorem exists_of_append (h : Balanced (left ++ right)) (depth : Nat) :
    ∃ inner, openBehind depth left = some inner ∧ depth ≤ inner := by
  rw [Balanced, openBehind_append] at h
  obtain ⟨inner, hinner, _⟩ := Option.bind_eq_some_iff.1 h
  have hmore := openBehind_add hinner depth
  rw [Nat.zero_add] at hmore
  exact ⟨_, hmore, Nat.le_add_left _ _⟩

end Balanced

theorem Derives.balanced {settings : Settings} {phrase : Phrase} {tokens : List Placed}
    (h : Derives settings phrase tokens) : Balanced tokens := by
  induction h with
  | token htree => exact .seen Token.tree? rfl rfl htree
  | @call name position opening closing arguments function tokens harguments hfunction ih =>
      have hname : Balanced [⟨.identifier name, position⟩] := .single nofun nofun
      exact hname.append (ih.parentheses opening closing)
  | @group opening closing inner tokens hinner ih => exact ih.parentheses opening closing
  | bare hvalue ih => exact ih
  | @sign placed op tree tokens hop hoperand ih =>
      have hsign : Balanced [placed] := .seen Token.unary? rfl rfl hop
      exact hsign.append ih
  | first hoperand ih => exact ih
  | @operator chain placed op tree left right hchain hop hoperand ihchain ihoperand =>
      have hoperator : Balanced [placed] := .seen Token.binary? rfl rfl hop
      exact ihchain.append (hoperator.append ihoperand)
  | juxtaposed himplicit hchain hvalue hseam ihchain ihvalue => exact ihchain.append ihvalue
  | formula hchain hlayered ih => exact ih
  | lastArgument hformula ih => exact ih
  | @argument tree trees position tokens rest hformula hrest ihformula ihrest =>
      have hcomma : Balanced [⟨.comma, position⟩] := .single nofun nofun
      exact ihformula.append (hcomma.append ihrest)

end Formula
