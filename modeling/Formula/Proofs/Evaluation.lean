/-
Evaluation, node by node.  A call to the library evaluates its arguments, if there are as
many as it takes, and applies the function to their values.
-/
import Formula.Expr.Eval

namespace Formula.Expr

theorem eval_var (name : String) (context : Context) :
    (var name).eval context =
      match context.value? name with
      | some value => .ok value
      | none => .error (.undefinedVariable name) := rfl

theorem eval_block (inner : Expr) (context : Context) :
    (block inner).eval context = inner.eval context := rfl

theorem eval_unary (op : UnaryOperator) (operand : Expr) (context : Context) :
    (unary op operand).eval context =
      (operand.eval context >>= fun value => .ok (op.apply value)) := rfl

theorem eval_binary (op : BinaryOperator) (left right : Expr) (context : Context) :
    (binary op left right).eval context =
      (left.eval context >>= fun x => right.eval context >>= fun y => .ok (op.apply x y)) := rfl

theorem evalAll_cons (expr : Expr) (rest : List Expr) (context : Context) :
    evalAll (expr :: rest) context =
      (expr.eval context >>= fun value => evalAll rest context >>= fun values =>
        .ok (value :: values)) := List.mapM_cons

theorem eval_call (name : String) (arguments : List Expr) (function : Builtin)
    (context : Context) :
    (call name arguments (.builtin function)).eval context =
      if arguments.length = function.arity then
        evalAll arguments context >>= fun values => function.apply context values
      else .error (function.countFault arguments.length) := by
  have hmeanings : (meanings arguments).mapM (· context) = evalAll arguments context := by
    rw [meanings_eq_map, List.mapM_map]
    rfl
  have hlength : (meanings arguments).length = arguments.length := by
    rw [meanings_eq_map, List.length_map]
  rw [eval, Implementation.run, Builtin.run, hmeanings, hlength]
  rfl

end Formula.Expr
