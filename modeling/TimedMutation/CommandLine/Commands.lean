import TimedMutation.Automaton.Codec
import TimedMutation.CommandLine.Arguments
import TimedMutation.CommandLine.Reporter
import TimedMutation.Config
import TimedMutation.Mutation.Generate
import TimedMutation.Plan.Document
import TimedMutation.Plan.Run

/-! The subcommands. -/

namespace TimedMutation.CommandLine

/-- Why a command fails. -/
inductive CommandError where
  | missingDirectory (path : String)
  | noJobs
  | file (e : FileError)
  | model (e : ModelError)
  | failure (f : Failure)

def CommandError.message : CommandError → String
  | missingDirectory path => "Configuration error: strategy directory " ++ path ++ " does not exist"
  | noJobs => "Invalid argument: --jobs must be at least 1"
  | file e => "I/O error: " ++ e.message
  | model e => "Invalid model: " ++ e.message
  | failure f => f.message

variable {m : Type → Type} [Monad m]

/-- The work of a command, which may fail. -/
abbrev Work (m : Type → Type) (α : Type) := ExceptT CommandError m α

/-- A result of the machine or of the library as the result of a command. -/
def orFail {α ε : Type} (wrap : ε → CommandError) (r : Except ε α) : Work m α :=
  ExceptT.mk (pure (r.mapError wrap))

/-- The text of a file. -/
def fileText (host : Host m) (path : String) : Work m String := do
  orFail .file (← host.readText path)

/-- The component of a file: JSON if the name says so, else YAML. -/
def loadComponent (host : Host m) (path : String) : Work m Component := do
  let text ← fileText host path
  orFail .model
    (if extension? path == some "json" then Component.ofJson text else Component.ofYaml text)

/-- The configuration of a file, or the default one. Operators of the command line come in the place
of its own. -/
def loadConfig (host : Host m) (path : Option String) (operators : List String) :
    Work m Config := do
  let config ← match path with
    | none => pure {}
    | some path => do orFail .failure (Config.ofYaml (← fileText host path))
  return if operators.isEmpty then config else { config with operators }

/-- The test cases of a component for the classes of a configuration. -/
def findCases (host : Host m) (config : Config) (model : String) : Work m (List TestCase) := do
  let classes ← orFail .failure config.classes
  return (← loadComponent host model).testCases classes

def reporterFor (host : Host m) (i : Invocation) : m Reporter := do
  let color ← match i.color with
    | .always => pure true
    | .never => pure false
    | .auto => host.isShown
  return { color, quiet := i.quiet }

def TestCase.summary (c : TestCase) : Document :=
  .record [("id", .text c.id), ("class", .text c.operator.code), ("description", .text c.description)]

/-- Write every mutant to a file of its own, named by its id. -/
def writeMutants (host : Host m) (directory : String) (cases : List TestCase) : Work m Unit := do
  orFail .file (← host.makeDirectories directory)
  for c in cases do
    orFail .file (← host.writeText (inDirectory directory (c.id ++ ".yaml")) c.mutant.toYaml)

def mutate (host : Host m) (i : Invocation) (a : MutateArguments) : Work m Unit := do
  let config ← loadConfig host i.config a.operators
  let cases ← findCases host config a.model
  if let some directory := a.out then writeMutants host directory cases
  match a.format with
  | .json => host.print (Json.pretty (.list (cases.map TestCase.summary)) ++ "\n")
  | .text =>
    for c in cases do
      host.print (c.id ++ "\t" ++ c.description ++ "\n")
    let r ← reporterFor (m := m) host i
    host.report (r.line .info (Text.ofNat cases.length ++ " mutants"))
    if let some directory := a.out then
      host.report (r.line .info ("mutants written to " ++ directory))

/-- The engine that finds the strategy of a case in a file named by its id. -/
def fileEngine (host : Host m) (directory : String) : Engine m where
  synthesize c _ := do
    let called ← host.clock
    let path := inDirectory directory (c.id ++ ".strategy")
    let answer := match ← host.readText path with
      | .ok text => .ok text
      | .error .notFound => .error (.notFound c.id path)
      | .error e => .error (.io e)
    return { answer, elapsed := (← host.clock) - called }
  pause := host.pause

/-- A configuration with the settings of the command line. -/
def RunArguments.override (a : RunArguments) (config : Config) : Config :=
  { config with
    replay := { config.replay with maxSteps := a.maxSteps.getD config.replay.maxSteps }
    engine := { config.engine with
      maxConnections := a.jobs.getD config.engine.maxConnections
      retry := { config.engine.retry with
        maxRetries := a.retries.getD config.engine.retry.maxRetries } } }

/-- The status lines of an outcome. -/
def outcomeLines (r : Reporter) (verbose : Bool) (o : CaseOutcome) : String :=
  match o.status with
  | .errored message => r.line .warning message
  | .completed result =>
    match result.verdict with
    | .fail => r.line .killed o.caseId
    | .pass => r.line .survived o.caseId ++ (if verbose then result.render ++ "\n" else "")
    | .inconclusive =>
      r.line .info (o.caseId ++ " inconclusive: " ++ result.reason.message)

def run (host : Host m) (i : Invocation) (a : RunArguments) : Work m Unit := do
  let config ← loadConfig host i.config a.operators
  if a.jobs == some 0 then throw .noJobs
  let config := a.override config
  if !(← host.isDirectory a.strategies) then throw (.missingDirectory a.strategies)
  let cases ← findCases host config a.model
  let started ← host.clock
  let plan : Plan := { cases, replay := config.replay, engine := config.engine }
  let engine := fileEngine host a.strategies
  let pool := Pool.ofSize config.engine.maxConnections
  let report := plan.report (← plan.run (m := m) engine pool)
  let milliseconds := ((← host.clock) - started) / 1000000
  match a.format with
  | .json => host.print (Json.pretty (report.toDocument milliseconds) ++ "\n")
  | .text =>
    let r ← reporterFor (m := m) host i
    host.report (r.header "Results")
    for o in report.outcomes do
      host.report (outcomeLines r i.verbose o)
    host.report (r.summary report.score report.errors milliseconds)

/-- The line of a state: its locations, what must be observed there, and the number of its rules. -/
def stateLine (s : Strategy) (state : StrategyState) : String :=
  "  ( " ++ state.first ++ " " ++ state.second ++ " ) " ++
    String.intercalate " " state.equalities ++ ": " ++
    Text.ofNat ((s.rules? state).getD []).length ++ " rules\n"

def checkStrategy (host : Host m) (i : Invocation) (path : String) : Work m Unit := do
  let s ← orFail (fun e => .failure (.strategy e)) (Strategy.ofText (← fileText host path))
  host.print (path ++ ": " ++ Text.ofNat s.size ++ " states\n")
  if i.verbose then
    for state in s.states do
      host.print (stateLine s state)

/-- The line of a class in the list of operators. -/
def classLine (c : MutationClass) : String :=
  c.code ++ String.ofList (List.replicate (24 - c.code.length) ' ') ++ " " ++ c.description ++ "\n"

def listOperators (host : Host m) : Work m Unit := do
  for c in MutationClass.all do
    host.print (classLine c)

def perform (host : Host m) (i : Invocation) : Work m Unit :=
  match i.command with
  | .mutate a => mutate host i a
  | .run a => run host i a
  | .checkStrategy path => checkStrategy host i path
  | .operators => listOperators host

def usage : String := "Usage: tamut [-v | -q] [--color auto|always|never] [-c CONFIG] COMMAND

Commands:
  mutate MODEL [-o CODES] [--out DIR] [-f text|json]
  run MODEL -s DIR [-o CODES] [-j N] [--max-steps N] [--retries N] [-f text|json]
  check-strategy FILE
  operators
"

/-- Do what the command line asks for. The result is the exit code. -/
def execute (host : Host m) (environment : Option String) (words : List String) : m UInt32 := do
  match request environment words with
  | .help => host.print usage; return 0
  | .invalid => host.report usage; return 2
  | .version none => host.print "tamut 0.4.0\n"; return 0
  | .version (some subcommand) => host.print ("tamut-" ++ subcommand ++ " 0.4.0\n"); return 0
  | .invoke i =>
    match ← (perform host i).run with
    | .ok () => return 0
    | .error e => host.report ("Error: " ++ e.message ++ "\n"); return 1

end TimedMutation.CommandLine
