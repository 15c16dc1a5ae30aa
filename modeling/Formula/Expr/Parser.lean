/-
The parser.  Calls and groups collapse to single tokens, what stands between
their parentheses being parsed on its own; then products without a star receive
one, operators claim their operands, and the tree is assembled.
-/
import Formula.Precedence.Assembly
import Formula.Token.Collapse
import Formula.Token.Juxtaposed
import Formula.Token.Scanner

namespace Formula

namespace Settings

/-- Arranges tokens without parentheses into a tree. -/
def arrange (settings : Settings) (tokens : List Placed) : Except ParseError Expr := do
  let tokens := if settings.implicitProducts then insertStars tokens else tokens
  let resolution ← resolve tokens
  resolution.assemble settings.maxHeight tokens

/-- Parses tokens that stand at a depth, with room for so many levels of
parentheses, their own included. -/
def parseWithin (settings : Settings) (room depth : Nat) :
    List Placed → Except ParseError Expr
  | [] => throw ⟨.emptyExpression, 0⟩
  | first :: rest =>
      match room with
      | 0 => throw ⟨.tooDeep depth, first.position⟩
      | room + 1 => do
          let inner := settings.parseWithin room (depth + 1)
          let tokens ← collapseCalls inner settings (first :: rest)
          let tokens ← collapseGroups inner tokens
          settings.arrange tokens

/-- Parses tokens that stand inside of so many parentheses. -/
def parseNested (settings : Settings) (depth : Nat) : List Placed → Except ParseError Expr :=
  settings.parseWithin (settings.maxDepth + 1 - depth) depth

theorem parseNested_of_le {settings : Settings} {depth : Nat} (h : depth ≤ settings.maxDepth)
    (first : Placed) (rest : List Placed) :
    settings.parseNested depth (first :: rest) =
      (collapseCalls (settings.parseNested (depth + 1)) settings (first :: rest) >>= fun tokens =>
        collapseGroups (settings.parseNested (depth + 1)) tokens >>= settings.arrange) := by
  have hroom : settings.maxDepth + 1 - depth = settings.maxDepth + 1 - (depth + 1) + 1 := by omega
  rw [parseNested, hroom]
  rfl

def parseTokens (settings : Settings) (tokens : List Placed) : Except ParseError Expr :=
  settings.parseNested 0 tokens

end Settings

/-- Reads a formula in a number format. -/
def parse (format : NumberFormat) (settings : Settings) (source : String) :
    Except ParseError Expr := do
  settings.parseTokens (← tokenize format source)

end Formula
