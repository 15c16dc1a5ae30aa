/-
Formulas in the place of variables.  If the formula has a value, evaluating it wherever the
variable stands is the same as binding the variable to that value.
-/
import Formula.Proofs.Evaluation
import Formula.Proofs.Postorder

namespace Formula

namespace Builtin

/-- The functions of the library depend on the angle unit of a context only. -/
theorem apply_bind (function : Builtin) (context : Context) (name : String) (bound : Float)
    (values : List Float) :
    function.apply (context.bind name bound) values = function.apply context values := rfl

end Builtin

namespace Expr

mutual

/-- Puts a tree into the place of a variable. -/
def substitute (tree : Expr) (name : String) (replacement : Expr) : Expr :=
  match tree with
  | number value => number value
  | var other => if other = name then replacement else var other
  | call function arguments implementation =>
      call function (substituteAll arguments name replacement) implementation
  | block inner => block (substitute inner name replacement)
  | unary op operand => unary op (substitute operand name replacement)
  | binary op left right =>
      binary op (substitute left name replacement) (substitute right name replacement)

def substituteAll (exprs : List Expr) (name : String) (replacement : Expr) : List Expr :=
  match exprs with
  | [] => []
  | expr :: rest => substitute expr name replacement :: substituteAll rest name replacement

end

theorem substituteAll_eq_map (exprs : List Expr) (name : String) (replacement : Expr) :
    substituteAll exprs name replacement = exprs.map (·.substitute name replacement) := by
  induction exprs with
  | nil => rfl
  | cons expr rest ih => rw [substituteAll, ih, List.map_cons]

theorem substitute_call (function : Function) (arguments : List Expr) (name : String)
    (replacement : Expr) :
    (function.call arguments).substitute name replacement =
      function.call (arguments.map (·.substitute name replacement)) := by
  rw [Function.call, substitute, substituteAll_eq_map]
  rfl

theorem substitute_var (name : String) (replacement : Expr) :
    (var name).substitute name replacement = replacement := by
  rw [substitute, if_pos rfl]

/-- Scanned tokens other than the variable stand for trees without it. -/
theorem substitute_of_tree? {token : Token} {tree replacement : Expr} {name : String}
    (htree : token.tree? = some tree) (hscanned : token.isScanned = true)
    (hname : token ≠ .identifier name) : tree.substitute name replacement = tree := by
  cases token with
  | number value =>
      obtain rfl := Option.some.inj htree
      rfl
  | identifier other =>
      obtain rfl := Option.some.inj htree
      have hne : other ≠ name := fun heq => hname (congrArg Token.identifier heq)
      rw [substitute, if_neg hne]
  | group | call => cases hscanned
  | _ => cases htree

/-- All calls are bound to functions of the library, whatever arguments they hand to them. -/
def CallsLibrary (tree : Expr) : Prop :=
  tree.CallsAre fun _ implementation => ∃ function, implementation = .builtin function

section Eval

variable {name : String} {replacement : Expr} {context : Context} {value : Float}

mutual

/-- Evaluating a tree in the place of a variable, or binding the variable to its value. -/
theorem eval_substitute (hreplacement : replacement.eval context = .ok value) (tree : Expr)
    (hcalls : tree.CallsLibrary) :
    (tree.substitute name replacement).eval context = tree.eval (context.bind name value) := by
  cases tree with
  | number literal => rfl
  | var other =>
      rw [substitute, eval_var, Context.value?_bind]
      by_cases hname : other = name
      · rw [if_pos hname, if_pos hname.symm, hreplacement]
      · rw [if_neg hname, if_neg (Ne.symm hname), eval_var]
  | call function arguments implementation =>
      obtain ⟨harguments, builtin, rfl⟩ := CallsAre.call_iff.1 hcalls
      have hlength : (substituteAll arguments name replacement).length = arguments.length := by
        rw [substituteAll_eq_map, List.length_map]
      rw [substitute, eval_call, eval_call, hlength,
        evalAll_substitute hreplacement arguments harguments]
      simp only [Builtin.apply_bind]
  | block inner => exact eval_substitute hreplacement inner (CallsAre.block_iff.1 hcalls)
  | unary op operand =>
      rw [substitute, eval_unary, eval_unary,
        eval_substitute hreplacement operand (CallsAre.unary_iff.1 hcalls)]
  | binary op left right =>
      obtain ⟨hleft, hright⟩ := CallsAre.binary_iff.1 hcalls
      rw [substitute, eval_binary, eval_binary, eval_substitute hreplacement left hleft,
        eval_substitute hreplacement right hright]

theorem evalAll_substitute (hreplacement : replacement.eval context = .ok value) (exprs : List Expr)
    (hcalls : ∀ expr ∈ exprs, expr.CallsLibrary) :
    evalAll (substituteAll exprs name replacement) context =
      evalAll exprs (context.bind name value) := by
  cases exprs with
  | nil => rfl
  | cons expr rest =>
      have hrest := evalAll_substitute hreplacement rest fun other hother =>
        hcalls other (List.mem_cons_of_mem _ hother)
      rw [substituteAll, evalAll_cons, evalAll_cons, hrest,
        eval_substitute hreplacement expr (hcalls expr List.mem_cons_self)]

end

end Eval

end Expr

theorem Arrangement.expr_map_substitute (tree : Arrangement) (name : String)
    (replacement : Expr) :
    (tree.map (·.substitute name replacement)).expr = tree.expr.substitute name replacement :=
  expr_map (fun _ _ _ => rfl) tree

end Formula
