import TimedMutation.CommandLine.Scan
import TimedMutation.Text.Numeral

/-! What the command line asks for. -/

namespace TimedMutation.CommandLine

inductive ColorChoice where
  | auto | always | never
  deriving DecidableEq, Repr

inductive OutputFormat where
  | text | json
  deriving DecidableEq, Repr

structure MutateArguments where
  model : String
  /-- Codes of operators; none leave the choice to the configuration. -/
  operators : List String
  /-- The directory that the mutants are written to. -/
  out : Option String
  format : OutputFormat

structure RunArguments where
  model : String
  /-- The directory of the strategies. -/
  strategies : String
  operators : List String
  jobs : Option Nat
  maxSteps : Option Nat
  retries : Option Nat
  format : OutputFormat

inductive Command where
  | mutate (arguments : MutateArguments)
  | run (arguments : RunArguments)
  | checkStrategy (path : String)
  | operators

structure Invocation where
  /-- Whether details are reported; never together with `quiet`. -/
  verbose : Bool
  quiet : Bool
  color : ColorChoice
  config : Option String
  command : Command

/-- What the command line comes to. The words of a version are those of the program and of the
subcommand that was asked for it. -/
inductive Request where
  | invoke (invocation : Invocation)
  | version (subcommand : Option String)
  | help
  | invalid

/-! ### Values -/

def colors : List (String × ColorChoice) := [("auto", .auto), ("always", .always), ("never", .never)]

def formats : List (String × OutputFormat) := [("text", .text), ("json", .json)]

def isPath (s : String) : Bool := !s.isEmpty

/-- A count of 64 bits, with a plus sign or none before its digits. -/
def count? (s : String) : Option Nat :=
  let digits :=
    match s.toList with
    | '+' :: digits => digits
    | digits => digits
  (Text.nat? 10 digits).filter fun n => Text.isCount64 n

/-! ### Options -/

def shared : List OptionSpec := [
  { name := "verbose", letter := some 'v', kind := .counter },
  { name := "quiet", letter := some 'q', kind := .flag },
  { name := "color", kind := .value, accepts := fun s => (colors.lookup s).isSome },
  { name := "config", letter := some 'c', kind := .value, accepts := isPath }]

def operatorsOption : OptionSpec := { name := "operators", letter := some 'o', kind := .list }

def formatOption : OptionSpec :=
  { name := "format", letter := some 'f', kind := .value,
    accepts := fun s => (formats.lookup s).isSome }

def countOption (name : String) (letter : Option Char) : OptionSpec :=
  { name, letter, kind := .value, accepts := fun s => (count? s).isSome }

def pathOption (name : String) (letter : Option Char) : OptionSpec :=
  { name, letter, kind := .value, accepts := isPath }

def subcommands : List (String × LevelSpec) := [
  ("mutate", {
    options := shared ++ [operatorsOption, pathOption "out" none, formatOption]
    operands := 1
    accepts := isPath }),
  ("run", {
    options := shared ++ [pathOption "strategies" (some 's'), operatorsOption,
      countOption "jobs" (some 'j'), countOption "max-steps" none, countOption "retries" none,
      formatOption]
    operands := 1
    accepts := isPath }),
  ("check-strategy", { options := shared, operands := 1, accepts := isPath }),
  ("operators", { options := shared })]

/-- The program's own level. `help` is a subcommand that other subcommands may follow. -/
def program : LevelSpec :=
  { options := shared, subcommands := "help" :: subcommands.map (·.1) }

/-! ### Reading -/

/-- The codes of all values of an option, commas between them. -/
def codes (l : Level) : List String :=
  (l.values "operators").flatMap fun s => (s.toList.splitOn ',').map String.ofList

def format (l : Level) : OutputFormat := ((l.value? "format").bind fun s => formats.lookup s).getD .text

def count (l : Level) (name : String) : Option Nat := (l.value? name).bind count?

/-- The command of a subcommand's level, unless a needed operand or option is missing. -/
def command? (subcommand : String) (l : Level) : Option Command :=
  match subcommand, l.operands with
  | "mutate", [model] =>
    some (.mutate { model, operators := codes l, out := l.value? "out", format := format l })
  | "run", [model] =>
    (l.value? "strategies").map fun strategies =>
      .run { model, strategies, operators := codes l, jobs := count l "jobs",
             maxSteps := count l "max-steps", retries := count l "retries", format := format l }
  | "check-strategy", [path] => some (.checkStrategy path)
  | "operators", [] => some .operators
  | _, _ => none

/-- The value of a shared option: that of the subcommand's level if it was given there. -/
def sharedValue? (outer inner : Level) (name : String) : Option String :=
  (inner.value? name).or (outer.value? name)

/-- Whether a shared option was given at either level. -/
def isGiven (outer inner : Level) (name : String) : Bool := outer.has name || inner.has name

/-- The configuration file, which the environment names where the command line does not. An empty
name in the environment is refused unless both levels name a file. -/
def config? (environment : Option String) (outer inner : Level) :
    Except Interruption (Option String) :=
  if environment == some "" && !(outer.has "config" && inner.has "config") then .error .invalid
  else .ok ((sharedValue? outer inner "config").or environment)

/-- What a subcommand and the words after it ask for. -/
def invoke (environment : Option String) (outer : Level) (subcommand : String) (inner : Level) :
    Except Interruption Invocation := do
  let some command := command? subcommand inner | throw .invalid
  let config ← config? environment outer inner
  return {
    verbose := isGiven outer inner "verbose" && !isGiven outer inner "quiet"
    quiet := isGiven outer inner "quiet"
    color := ((sharedValue? outer inner "color").bind fun s => colors.lookup s).getD .auto
    config, command }

/-- What the subcommand `help` answers to the words after it. -/
def helpRequest (words : List String) : Request :=
  match words with
  | [] => .help
  | name :: rest => if program.subcommands.contains name && rest.isEmpty then .help else .invalid

/-- What the command line and the environment ask for. -/
def request (environment : Option String) (words : List String) : Request :=
  let answer (subcommand : Option String) : Interruption → Request
    | .help => .help
    | .version => .version subcommand
    | .invalid => .invalid
  match scan program .empty .nothing words with
  | .error e => answer none e
  | .ok ⟨_, none⟩ => .invalid
  | .ok ⟨outer, some (name, rest)⟩ =>
    match subcommands.lookup name with
    | none => helpRequest rest
    | some spec =>
      let invocation : Except Interruption Invocation := do
        let inner ← (← scan spec .empty .nothing rest).level
        invoke environment (← outer) name inner
      match invocation with
      | .ok invocation => .invoke invocation
      | .error e => answer (some name) e

end TimedMutation.CommandLine
