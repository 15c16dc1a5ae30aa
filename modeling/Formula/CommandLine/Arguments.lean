/-
Reading the arguments of the program.  Options stand before, between and behind
the expression until two dashes end them.  An option that waits for its value
takes the next argument that is no option; its value is read only when the next
option, the expression or the end is reached, so an argument that is no option
at all is refused before it.
-/
import Formula.CommandLine.Options

namespace Formula.CommandLine

structure Arguments where
  bindings : List (String × Float) := []
  angleUnit : Option AngleUnit := none
  decimalSeparator : Option Char := none
  spacing : Option Nat := none
  noImplicit : Bool := false
  render : Bool := false
  expression : Option String := none

/-- Why the arguments ask for no formula. -/
inductive Halt where
  | usage (error : UsageError)
  | help
  | version

/-- The arguments read so far, and an option whose value is not read yet. -/
structure Reading where
  arguments : Arguments := {}
  pending : Option (ValueOption × Option String) := none

namespace Arguments

/-- Whether an option that may be given once has been given. -/
def has (arguments : Arguments) : ValueOption → Bool
  | .binding => false
  | .angleUnit => arguments.angleUnit.isSome
  | .decimalSeparator => arguments.decimalSeparator.isSome
  | .spacing => arguments.spacing.isSome

def readValue (arguments : Arguments) (text : String) : ValueOption → Except String Arguments
  | .binding => do
      return { arguments with bindings := arguments.bindings ++ [← readBinding text] }
  | .angleUnit => do return { arguments with angleUnit := some (← readUnit text) }
  | .decimalSeparator => do return { arguments with decimalSeparator := some (← readCharacter text) }
  | .spacing => do return { arguments with spacing := some (← readNatural text) }

/-- Takes the value of an option in. -/
def store (arguments : Arguments) (option : ValueOption) (text : String) :
    Except Halt Arguments :=
  if arguments.has option then throw (.usage (.repeated option.usage))
  else (arguments.readValue text option).mapError fun reason =>
    .usage (.invalidValue text option reason)

/-- Takes a switch in. -/
def turnOn (arguments : Arguments) : Switch → Except Halt Arguments
  | .help => throw .help
  | .version => throw .version
  | .noImplicit =>
      if arguments.noImplicit then throw (.usage (.repeated Switch.noImplicit.usage))
      else pure { arguments with noImplicit := true }
  | .render =>
      if arguments.render then throw (.usage (.repeated Switch.render.usage))
      else pure { arguments with render := true }

end Arguments

namespace Reading

/-- Reads the value of the option that is pending. -/
def settle (reading : Reading) : Except Halt Arguments :=
  match reading.pending with
  | none => pure reading.arguments
  | some (option, none) => throw (.usage (.missingValue option))
  | some (option, some text) => reading.arguments.store option text

def switch (reading : Reading) (switch : Switch) : Except Halt Reading := do
  return { arguments := ← (← reading.settle).turnOn switch }

/-- Takes an option in whose value may stand in the same argument. -/
def value (reading : Reading) (option : ValueOption) : Option String → Except Halt Reading
  | none => do return { arguments := ← reading.settle, pending := some (option, none) }
  | some text => do return { arguments := ← (← reading.settle).store option text }

/-- An argument with two dashes; an equals sign parts a value from the name. -/
def long (reading : Reading) (body : List Char) : Except Halt Reading :=
  let (name, rest) := body.span (· ≠ '=')
  let name := String.ofList name
  let text := rest.tail?.map String.ofList
  match Flag.ofLong? name, text with
  | some (.value option), text => reading.value option text
  | some (.switch switch), none => reading.switch switch
  | some (.switch switch), some text => throw (.usage (.unexpectedValue text switch))
  | none, _ => throw (.usage (.unexpectedArgument ("--" ++ name)))

/-- An argument with one dash: switches in a row, and behind them at most one
option with a value, which may follow directly or behind an equals sign. -/
def short (reading : Reading) : List Char → Except Halt Reading
  | [] => pure reading
  | c :: rest =>
      match Flag.ofShort? c with
      | some (.switch switch) => do (← reading.switch switch).short rest
      | some (.value option) =>
          reading.value option <|
            match rest with
            | [] => none
            | '=' :: text => some (String.ofList text)
            | text => some (String.ofList text)
      | none => throw (.usage (.unexpectedArgument (String.ofList ['-', c])))

/-- An argument that is no option: the expression, of which there is one. -/
def expression (reading : Reading) (text : String) : Except Halt Reading :=
  if reading.arguments.expression.isSome then throw (.usage (.unexpectedArgument text))
  else do return { arguments := { ← reading.settle with expression := some text } }

/-- One argument in front of the end of options. -/
def argument (reading : Reading) (text : String) : Except Halt Reading :=
  match text.toList with
  | '-' :: '-' :: body => reading.long body
  | '-' :: c :: body => reading.short (c :: body)
  | _ =>
      match reading.pending with
      | some (option, none) => pure { reading with pending := some (option, some text) }
      | _ => reading.expression text

def all (reading : Reading) : List String → Except Halt Reading
  | [] => pure reading
  | "--" :: rest => rest.foldlM expression reading
  | text :: rest => do (← reading.argument text).all rest

end Reading

/-- Reads the arguments of the program. -/
def Arguments.read (arguments : List String) : Except Halt Arguments := do
  let reading ← Reading.all {} arguments
  reading.settle

end Formula.CommandLine
