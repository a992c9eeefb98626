import TimedMutation.Automaton.Basic
import TimedMutation.Expr.Eval
import TimedMutation.Simulation.Error
import TimedMutation.TieBreak

/-! Running components: their state and what can be observed of it. -/

namespace TimedMutation

/-- One step that was taken. -/
inductive TraceEntry where
  | delay (location : String) (amount : Float)
  | action (source target action : String)

def TraceEntry.target? : TraceEntry → Option String
  | action _ target _ => some target
  | delay _ _ => none

/-- The location and the values of clocks and locals at one moment. -/
structure Snapshot where
  location : String
  clocks : Bindings Float
  locals : Bindings Int

namespace Snapshot

/-- Clocks and locals under their names. A local hides a clock of the same name. -/
def valuation (s : Snapshot) : Valuation := s.clocks.union (s.locals.map Float.ofInt)

/-- The values in braces, clocks before locals. -/
def render (s : Snapshot) : String :=
  let clocks := s.clocks.entries.map fun (name, x) => name ++ "=" ++ Decimal.plain x
  let locals := s.locals.entries.map fun (name, n) => name ++ "=" ++ Text.ofInt n
  "\x7b" ++ String.intercalate ", " (clocks ++ locals) ++ "\x7d"

end Snapshot

/-- A component that runs under a process name. -/
structure Simulation where
  component : Component
  process : String
  tieBreak : TieBreak
  /-- Where the run started. -/
  initial : String
  now : Snapshot
  /-- The steps taken, the latest first. -/
  history : List TraceEntry

namespace Simulation

def location (s : Simulation) : String := s.now.location

def clock? (s : Simulation) (name : String) : Option Float := s.now.clocks.get? name

def local? (s : Simulation) (name : String) : Option Int := s.now.locals.get? name

/-- The steps taken, in order. -/
def trace (s : Simulation) : List TraceEntry := s.history.reverse

/-- The initial location and the targets of the actions, in order. -/
def path (s : Simulation) : List String := s.initial :: s.trace.filterMap TraceEntry.target?

/-- The name of a location or a variable of this process. -/
def qualify (s : Simulation) (name : String) : String := s.process ++ "." ++ name

def qualifiedLocation (s : Simulation) : String := s.qualify s.location

/-- The values of the locals as equalities over qualified names. -/
def localEqualities (s : Simulation) : List String :=
  s.now.locals.entries.map fun (name, n) => s.qualify name ++ "=" ++ Text.ofInt n

def valuation (s : Simulation) : Valuation := s.now.valuation

/-- The valuation under qualified names. -/
def qualifiedValuation (s : Simulation) : Valuation :=
  Bindings.ofList (s.valuation.entries.map fun (name, x) => (s.qualify name, x))

/-- The simulation with its clocks and locals at their start, without a look at invariants. -/
def atStart (c : Component) (process : String) (tieBreak : TieBreak) (initial : String) :
    Simulation where
  component := c
  process := process
  tieBreak := tieBreak
  initial := initial
  now := {
    location := initial
    clocks := Bindings.ofList (c.declarations.clocks.map fun name => (name, 0.0))
    locals := Bindings.ofList (c.declarations.locals.map fun l => (l.name, l.initial)) }
  history := []

/-- The component in its initial location, whose invariant must hold at the start. -/
def start (c : Component) (process : String) (tieBreak : TieBreak) :
    Except SimulationError Simulation := do
  let refuse (flaw : ModelFlaw) := Except.error (SimulationError.step process (.model flaw))
  match c.initialLocation? with
  | none => refuse .noInitialLocation
  | some l =>
    let s := atStart c process tieBreak l.id
    if ← inSimulation (holds l.invariant s.valuation) then return s
    else refuse (.initialInvariant l.invariant l.id)

end Simulation

end TimedMutation
