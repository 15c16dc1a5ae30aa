/-
Which error a formula ends in.  Every node fails for reasons of its own or not at all, and
evaluation ends in the fault of the node that comes first in the order of evaluation.
-/
import Formula.Proofs.Evaluation
import Formula.Proofs.Postorder
import Formula.Proofs.Printing.RoundTrip

namespace Formula

/-- The outcome is the fault that is given, or a value if none is given. -/
def FailsBy {α : Type} (outcome : Except EvalError α) (fault? : Option EvalError) : Prop :=
  ∀ error, outcome = .error error ↔ fault? = some error

namespace FailsBy

variable {α β : Type} {outcome : Except EvalError α} {fault? : Option EvalError}

theorem ok (value : α) : FailsBy (.ok value) none := by
  intro error
  simp

theorem error (error : EvalError) : FailsBy (.error error : Except EvalError α) (some error) := by
  intro other
  simp

/-- Of two steps the fault of the first one comes first. -/
theorem bind {next : α → Except EvalError β} {nextFault? : Option EvalError}
    (h : FailsBy outcome fault?)
    (hnext : ∀ value, outcome = .ok value → FailsBy (next value) nextFault?) :
    FailsBy (outcome >>= next) (fault?.or nextFault?) := by
  cases houtcome : outcome with
  | error found =>
      have hfault : fault? = some found := (h found).1 houtcome
      rw [hfault]
      exact .error found
  | ok value =>
      have hfault : fault? = none := by
        cases hfault : fault? with
        | none => rfl
        | some found =>
            have herror := (h found).2 hfault
            rw [houtcome] at herror
            cases herror
      rw [hfault]
      exact hnext value houtcome

/-- A step that cannot fail has no faults. -/
theorem bind_ok (h : FailsBy outcome fault?) (result : α → β) :
    FailsBy (outcome >>= fun value => .ok (result value)) fault? := by
  have hbind := h.bind fun value _ => ok (result value)
  rwa [Option.or_none] at hbind

theorem exists_ok_iff (h : FailsBy outcome fault?) :
    (∃ value, outcome = .ok value) ↔ fault? = none := by
  constructor
  · rintro ⟨value, rfl⟩
    cases hfault : fault? with
    | none => rfl
    | some found => cases (h found).2 hfault
  · rintro rfl
    cases houtcome : outcome with
    | error found => cases (h found).1 houtcome
    | ok value => exact ⟨value, rfl⟩

end FailsBy

/-- The fault of a unit that is none of the measure. -/
def Measure.fault? (measure : Measure) (unit : AngleUnit) : Option EvalError :=
  if measure.contains unit then none else some (.incompatibleUnit unit.name measure.name)

theorem Measure.check_failsBy (measure : Measure) (unit : AngleUnit) :
    FailsBy (measure.check unit) (measure.fault? unit) := by
  unfold check fault?
  split
  · exact .ok _
  · exact .error _

namespace Builtin

/-- The fault of a function of the library at its evaluated arguments, as many as it
takes. -/
def fault? (function : Builtin) (context : Context) (values : Except EvalError (List Float)) :
    Option EvalError :=
  match function, values with
  | clamp, .ok [_, lower, upper] =>
      if upper < lower then some (.invalidArgument clamp.name (.crossedBounds lower upper))
      else none
  | sin, _ | cos, _ | tan, _ => Measure.angle.fault? context.angleUnit
  | _, _ => none

theorem ofAngle_failsBy (function : Float → Float) (context : Context) (angle : Float) :
    FailsBy (ofAngle function context angle) (Measure.angle.fault? context.angleUnit) := by
  have hradian : Measure.angle.fault? .radian = none := by decide
  have htarget := (Measure.angle.check_failsBy .radian).bind_ok fun _ =>
    if context.angleUnit == .radian then angle
    else angle * context.angleUnit.toBase / AngleUnit.radian.toBase
  have hconvert := (Measure.angle.check_failsBy context.angleUnit).bind fun _ _ => htarget
  rw [hradian, Option.or_none] at hconvert
  exact hconvert.bind_ok function

theorem apply_failsBy (function : Builtin) (context : Context) {values : List Float}
    (hlength : values.length = function.arity) :
    FailsBy (function.apply context values) (function.fault? context (.ok values)) := by
  cases function with
  | abs | ceiling | round | floor =>
      obtain ⟨x, rfl⟩ := List.length_eq_one_iff.1 hlength
      exact .ok _
  | min | max =>
      obtain ⟨x, y, rfl⟩ := List.length_eq_two.1 hlength
      exact .ok _
  | clamp =>
      obtain ⟨x, lower, upper, rfl⟩ := List.length_eq_three.1 hlength
      rw [apply, clampValue, fault?]
      split
      · exact .error _
      · exact .ok _
  | sin | cos | tan =>
      obtain ⟨x, rfl⟩ := List.length_eq_one_iff.1 hlength
      exact ofAngle_failsBy _ context x

end Builtin

namespace Expr

/-- Why a node fails, whatever the nodes below it do. -/
def fault? (context : Context) : Expr → Option EvalError
  | var name => if (context.value? name).isSome then none else some (.undefinedVariable name)
  | call _ arguments (.builtin function) => function.fault? context (evalAll arguments context)
  | _ => none

theorem fault?_block (context : Context) (inner : Expr) : (block inner).fault? context = none := rfl

theorem fault?_unary (context : Context) (op : UnaryOperator) (operand : Expr) :
    (unary op operand).fault? context = none := rfl

theorem fault?_binary (context : Context) (op : BinaryOperator) (left right : Expr) :
    (binary op left right).fault? context = none := rfl

/-- All calls are bound to functions of the library, with the arguments that these take. -/
def CallsBuiltins (tree : Expr) : Prop :=
  tree.CallsAre fun arguments implementation =>
    ∃ function, implementation = .builtin function ∧ arguments.length = function.arity

theorem findSome?_below (context : Context) (below : List Expr) (node : Expr) :
    (below ++ [node]).findSome? (fault? context) =
      (below.findSome? (fault? context)).or (node.fault? context) := by
  rw [List.findSome?_append, List.findSome?_singleton]

mutual

/-- A node fails where a node below it does, and else by its own fault. -/
theorem eval_failsBy (tree : Expr) (h : tree.CallsBuiltins) (context : Context) :
    FailsBy (tree.eval context) (tree.postorder.findSome? (fault? context)) := by
  cases tree with
  | number value => exact .ok value
  | var name =>
      rw [postorder, List.findSome?_singleton, fault?, eval_var]
      cases context.value? name with
      | none => exact .error _
      | some value => exact .ok value
  | call name arguments implementation =>
      obtain ⟨harguments, function, rfl, hlength⟩ := CallsAre.call_iff.1 h
      have hall := evalAll_failsBy arguments harguments context
      rw [postorder, findSome?_below, eval_call, if_pos hlength]
      apply hall.bind
      intro values hvalues
      have hcount : values.length = function.arity := by
        rw [← hlength, (mapM_eq_ok_iff.1 hvalues).length_eq]
      rw [fault?, hvalues]
      exact function.apply_failsBy context hcount
  | block inner =>
      have hinner := eval_failsBy inner (CallsAre.block_iff.1 h) context
      rwa [postorder, findSome?_below, eval_block, fault?_block, Option.or_none]
  | unary op operand =>
      have hoperand := eval_failsBy operand (CallsAre.unary_iff.1 h) context
      rw [postorder, findSome?_below, eval_unary, fault?_unary, Option.or_none]
      exact hoperand.bind_ok op.apply
  | binary op left right =>
      obtain ⟨hleft, hright⟩ := CallsAre.binary_iff.1 h
      rw [postorder, findSome?_below, eval_binary, fault?_binary, Option.or_none,
        List.findSome?_append]
      apply (eval_failsBy left hleft context).bind
      intro x _
      exact (eval_failsBy right hright context).bind_ok (op.apply x)

theorem evalAll_failsBy (exprs : List Expr) (h : ∀ expr ∈ exprs, expr.CallsBuiltins)
    (context : Context) :
    FailsBy (evalAll exprs context) ((postorders exprs).findSome? (fault? context)) := by
  cases exprs with
  | nil => exact .ok []
  | cons expr rest =>
      have hrest := evalAll_failsBy rest (fun other hother => h other (List.mem_cons_of_mem _ hother))
        context
      rw [evalAll_cons, postorders, List.findSome?_append]
      apply (eval_failsBy expr (h expr List.mem_cons_self) context).bind
      intro value _
      exact hrest.bind_ok (value :: ·)

end

/-- No node holds the number of its arguments against them. -/
theorem fault?_ne_count (context : Context) (node : Expr) (name : String) (expected given : Nat) :
    node.fault? context ≠ some (.invalidArgument name (.count expected given)) := by
  cases node with
  | var name =>
      rw [fault?]
      split <;> simp
  | call other arguments implementation =>
      cases implementation with
      | builtin function =>
          rw [fault?]
          unfold Builtin.fault? Measure.fault?
          split
          · split <;> simp
          · split <;> simp
          · split <;> simp
          · split <;> simp
          · nofun
      | custom run => nofun
  | _ => nofun

end Expr

/-- With the functions of the library all calls of a formula are bound to one of them, as it
takes its arguments. -/
theorem callsBuiltins_of_parse {format : NumberFormat} {source : String} {tree : Expr}
    (h : parse format .standard source = .ok tree) : tree.CallsBuiltins := by
  obtain ⟨tokens, hmunch, hparse⟩ := parse_eq_ok_iff.1 h
  have hscanned : ∀ placed ∈ tokens, placed.token.isScanned = true := fun placed hplaced =>
    NumberFormat.isScanned_of_scanned (NumberFormat.scanned_of_mem_munch hmunch placed hplaced)
  obtain ⟨hderives, _⟩ := Settings.derives_of_parseWithin hparse
  refine Derives.callsAre ?_ hscanned hderives
  intro function hfunction arguments hlength
  obtain ⟨builtin, _, rfl⟩ := List.mem_map.1 hfunction
  exact ⟨builtin, rfl, hlength⟩

/-- Evaluation ends in the first fault of a node, and has a value exactly if there is none.
This holds of all formulas that call functions of the library as these take their arguments,
and with the functions of the library that are all formulas that are parsed. -/
theorem eval_first_fault :
    (∀ (tree : Expr) (context : Context), tree.CallsBuiltins →
      (∀ fault, tree.eval context = .error fault ↔
        tree.postorder.findSome? (Expr.fault? context) = some fault) ∧
      ((∃ value, tree.eval context = .ok value) ↔
        ∀ node ∈ tree.postorder, node.fault? context = none) ∧
      ∀ name expected given,
        tree.eval context ≠ .error (.invalidArgument name (.count expected given))) ∧
    ∀ format source tree, parse format .standard source = .ok tree → tree.CallsBuiltins := by
  constructor
  · intro tree context hcalls
    have hfails := tree.eval_failsBy hcalls context
    refine ⟨hfails, ?_, ?_⟩
    · rw [hfails.exists_ok_iff, List.findSome?_eq_none_iff]
    · intro name expected given heval
      obtain ⟨node, _, hnode⟩ := List.exists_of_findSome?_eq_some ((hfails _).1 heval)
      exact node.fault?_ne_count context name expected given hnode
  · intro format source tree hparse
    exact callsBuiltins_of_parse hparse

/-- The formula `clamp(1, 2, x) + sin(y)`. -/
def clampThenSine : Expr :=
  .binary .add (Builtin.clamp.definition.call [.number 1, .number 2, .var "x"])
    (Builtin.sin.definition.call [.var "y"])

/-- A unit that the measure of angles does not list. -/
def gradian : AngleUnit := ⟨"Gradian", "gon", 0.9⟩

/-- What comes first in the order of evaluation hides what comes behind it: a variable that is
missed, bounds that are crossed, the other variable, the unit of the angle. -/
theorem eval_first_fault_clampThenSine :
    clampThenSine.CallsBuiltins ∧
      clampThenSine.eval {} = .error (.undefinedVariable "x") ∧
      clampThenSine.eval (Context.bind {} "x" 1) =
        .error (.invalidArgument "clamp" (.crossedBounds 2 1)) ∧
      clampThenSine.eval (Context.bind {} "x" 3) = .error (.undefinedVariable "y") ∧
      clampThenSine.eval ((Context.bind { angleUnit := gradian } "x" 3).bind "y" 1) =
        .error (.incompatibleUnit "Gradian" "Angle") ∧
      ∃ value, clampThenSine.eval ((Context.bind {} "x" 3).bind "y" 1) = .ok value := by
  have hclamp : ∀ argument ∈ [Expr.number 1, .number 2, .var "x"], argument.CallsBuiltins := by
    simp [Expr.CallsBuiltins, Expr.CallsAre.number, Expr.CallsAre.var]
  have hsine : ∀ argument ∈ [Expr.var "y"], argument.CallsBuiltins := by
    simp [Expr.CallsBuiltins, Expr.CallsAre.var]
  have hcalls : clampThenSine.CallsBuiltins :=
    Expr.CallsAre.binary_iff.2
      ⟨Expr.CallsAre.call_iff.2 ⟨hclamp, .clamp, rfl, rfl⟩,
        Expr.CallsAre.call_iff.2 ⟨hsine, .sin, rfl, rfl⟩⟩
  have hfaults := fun context => eval_first_fault.1 clampThenSine context hcalls
  refine ⟨hcalls, ((hfaults _).1 _).2 (by decide), ((hfaults _).1 _).2 (by decide +kernel),
    ((hfaults _).1 _).2 (by decide +kernel), ((hfaults _).1 _).2 (by decide +kernel),
    (hfaults _).2.1.2 (by decide +kernel)⟩

end Formula
