/-
The program: reads a formula from the arguments and prints its value, or the
formula itself.
-/
import Formula.CommandLine.Arguments
import Formula.Expr.Eval
import Formula.Expr.Parser
import Formula.Expr.Printer

namespace Formula.CommandLine

/-- What a run of the program leaves: its exit status and the texts it prints. -/
structure Report where
  status : Nat := 0
  stdout : String := ""
  stderr : String := ""
deriving DecidableEq, Repr

namespace Report

def printed (text : String) : Report := { stdout := text ++ "\n" }

def failed (status : Nat) (text : String) : Report := { status, stderr := text ++ "\n" }

end Report

def versionText : String := "equation 0.1.0"

def usageLine : String := "Usage: equation [OPTIONS] <EXPRESSION>"

def helpText : String :=
  let names := Builtin.all.map Builtin.name
  String.intercalate "\n" <|
    ["Parses user-typed algebraic formulas into reusable syntax trees and evaluates them.",
      "",
      usageLine,
      "",
      "Arguments:",
      "  <EXPRESSION>  ",
      "",
      "Options:",
      "  -v, --var <NAME=VALUE>",
      "          Binds a variable, e.g. `-v x=5`. May be given more than once",
      "  -a, --angle-unit <UNIT>",
      "          Unit the trigonometric functions read their argument in [default: degree]",
      "      --no-implicit",
      "          Treats `2x` as an error instead of `2 * x`",
      "  -d, --decimal-separator <DECIMAL_SEPARATOR>",
      "          Character separating the integral and fractional part of numbers [default: .]",
      "  -r, --render",
      "          Prints the parsed expression instead of its value",
      "  -s, --spacing <SPACING>",
      "          Spaces around operators when rendering [default: 1]",
      "  -h, --help",
      "          Print help",
      "  -V, --version",
      "          Print version",
      "",
      "Built-in functions: " ++ String.intercalate ", " names]

namespace Arguments

def format (arguments : Arguments) : NumberFormat := ⟨arguments.decimalSeparator.getD '.'⟩

def settings (arguments : Arguments) : Settings :=
  { Settings.standard with implicitProducts := !arguments.noImplicit }

def layout (arguments : Arguments) : Layout :=
  { spacing := arguments.spacing.getD 1, format := arguments.format }

def context (arguments : Arguments) : Context :=
  arguments.bindings.foldl (fun context (name, value) => context.bind name value)
    { angleUnit := arguments.angleUnit.getD .degree }

/-- Prints the value of an expression, or the expression itself. -/
def report (arguments : Arguments) (expression : String) : Report :=
  match parse arguments.format arguments.settings expression with
  | .error error => .failed 1 error.message
  | .ok expr =>
      if arguments.render then .printed (expr.render arguments.layout)
      else
        match expr.eval arguments.context with
        | .ok value => .printed (Binary64.toText value)
        | .error error => .failed 1 error.message

end Arguments

def Halt.report : Halt → Report
  | .help => .printed helpText
  | .version => .printed versionText
  | .usage error =>
      let message := error.message
      .failed 2 s!"error: {message}\n\n{usageLine}\n\nFor more information, try '--help'."

/-- Runs the program. -/
def run (arguments : List String) : Report :=
  match Arguments.read arguments with
  | .error halt => halt.report
  | .ok arguments =>
      match arguments.expression with
      | some expression => arguments.report expression
      | none => (Halt.usage .missingExpression).report

end Formula.CommandLine
