/-
A workspace keeps named formulas together with the context, the settings and the
number format that commands change between them.  A formula keeps what it was
parsed with; only its context is taken anew at each calculation.
-/
import Formula.Expr.Eval
import Formula.Expr.Parser
import Formula.Expr.Printer

namespace Formula

structure Workspace where
  context : Context := {}
  settings : Settings := .standard
  format : NumberFormat := default
  formulas : Std.TreeMap String Expr := {}

inductive Command where
  | bind (name : String) (value : Float)
  | lookUp (name : String)
  | useUnit (unit : AngleUnit)
  | resetContext
  | useSettings (settings : Settings)
  | register (function : Function)
  | useImplicitProducts (enabled : Bool)
  | useMaxDepth (limit : Nat)
  | useMaxHeight (limit : Nat)
  | useSeparator (separator : Char)
  | parse (name source : String)
  | calculate (name : String)
  | render (name : String) (spacing : Nat)
  | compare (name other : String)

inductive Outcome where
  | bindings (all : List (String × Float))
  | value? (value : Option Float)
  | unit (name : String)
  | functions (all : List (String × Nat))
  | flag (enabled : Bool)
  | limit (limit : Nat)
  | separator (separator : Char)
  | tree (expr : Expr)
  | value (value : Float)
  | text (text : String)
  | equal (equal : Bool)
  | parseError (error : ParseError)
  | evalError (error : EvalError)
  | unknownFormula (name : String)

namespace Workspace

instance : Inhabited Workspace := ⟨{}⟩

/-- Applies a rule to a named formula. -/
def withFormula (workspace : Workspace) (name : String) (rule : Expr → Outcome) : Outcome :=
  match workspace.formulas[name]? with
  | some expr => rule expr
  | none => .unknownFormula name

def useContext (workspace : Workspace) (context : Context) : Workspace × Outcome :=
  ({ workspace with context }, .bindings context.bindings)

def useSettings (workspace : Workspace) (settings : Settings) : Workspace × Outcome :=
  ({ workspace with settings },
    .functions (settings.functions.map fun function => (function.name, function.arity)))

/-- Parses a formula and keeps it under a name; a formula that does not parse
leaves the workspace as it was. -/
def parse (workspace : Workspace) (name source : String) : Workspace × Outcome :=
  match Formula.parse workspace.format workspace.settings source with
  | .ok expr => ({ workspace with formulas := workspace.formulas.insert name expr }, .tree expr)
  | .error error => (workspace, .parseError error)

def calculate (workspace : Workspace) (expr : Expr) : Outcome :=
  match expr.eval workspace.context with
  | .ok value => .value value
  | .error error => .evalError error

def render (workspace : Workspace) (spacing : Nat) (expr : Expr) : Outcome :=
  .text (expr.render { spacing, format := workspace.format })

/-- Carries out a command. -/
def run (workspace : Workspace) : Command → Workspace × Outcome
  | .bind name value => workspace.useContext (workspace.context.bind name value)
  | .lookUp name => (workspace, .value? (workspace.context.value? name))
  | .useUnit unit =>
      ({ workspace with context := { workspace.context with angleUnit := unit } }, .unit unit.name)
  | .resetContext => workspace.useContext {}
  | .useSettings settings => workspace.useSettings settings
  | .register function => workspace.useSettings (workspace.settings.register function)
  | .useImplicitProducts enabled =>
      ({ workspace with settings := { workspace.settings with implicitProducts := enabled } },
        .flag enabled)
  | .useMaxDepth limit =>
      ({ workspace with settings := { workspace.settings with maxDepth := limit } }, .limit limit)
  | .useMaxHeight limit =>
      ({ workspace with settings := { workspace.settings with maxHeight := limit } }, .limit limit)
  | .useSeparator separator => ({ workspace with format := ⟨separator⟩ }, .separator separator)
  | .parse name source => workspace.parse name source
  | .calculate name => (workspace, workspace.withFormula name workspace.calculate)
  | .render name spacing => (workspace, workspace.withFormula name (workspace.render spacing))
  | .compare name other =>
      (workspace, workspace.withFormula name fun expr =>
        workspace.withFormula other fun expr' => .equal (expr == expr'))

/-- Carries out commands in turn. -/
def runAll (workspace : Workspace) : List Command → Workspace × List Outcome
  | [] => (workspace, [])
  | command :: rest =>
      let (workspace, outcome) := workspace.run command
      let (workspace, outcomes) := workspace.runAll rest
      (workspace, outcome :: outcomes)

end Workspace

end Formula
