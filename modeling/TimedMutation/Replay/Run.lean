import TimedMutation.Failure
import TimedMutation.Replay.Basic

/-! The verdict on a test case. -/

namespace TimedMutation

/-- How a replay ended, after how many steps, and where. -/
structure Ending where
  reason : Reason
  steps : Nat
  last : Pair

namespace Pair

/-- Follow a strategy for at most `budget` steps more. -/
def follow (settings : ReplaySettings) (strategy : Strategy) :
    (budget steps : Nat) → Pair → Except SimulationError Ending
  | 0, steps, p => .ok ⟨.budget, steps, p⟩
  | budget + 1, steps, p => do
    match ← inSimulation (strategy.rule? p.test p.mutant settings.tieBreak) with
    | none => return ⟨.uncovered, steps, p⟩
    | some rule =>
      match ← p.step settings rule with
      | .on next => next.follow settings strategy budget (steps + 1)
      | .stop reason last => return ⟨reason, steps + 1, last⟩

/-- The two processes of a test case at their start. -/
def start (settings : ReplaySettings) (subject mutant : Component) :
    Except SimulationError Pair := do
  let test ← Simulation.start subject settings.testProcess settings.tieBreak
  let mutant ← Simulation.start mutant settings.mutantProcess settings.tieBreak
  return ⟨test, mutant⟩

end Pair

/-- The verdict on a test case, the states at the end, and the locations that the test model went
through. -/
structure TestResult where
  id : String
  reason : Reason
  steps : Nat
  test : Snapshot
  mutant : Snapshot
  path : List String

namespace TestResult

def verdict (r : TestResult) : Verdict := r.reason.verdict

def ofEnding (id : String) (e : Ending) : TestResult where
  id := id
  reason := e.reason
  steps := e.steps
  test := e.last.test.now
  mutant := e.last.mutant.now
  path := e.last.test.path

/-- The result on five lines. -/
def render (r : TestResult) : String :=
  let place (who : String) (s : Snapshot) : String :=
    who ++ " is in location: " ++ s.location ++ " with values: " ++ s.render
  String.intercalate "\n" ["Id: " ++ r.id, "Reason: " ++ r.reason.message,
    place "Test model" r.test, place "Mutant" r.mutant,
    "Trace: " ++ String.intercalate " -> " r.path]

end TestResult

namespace TestCase

/-- The result of replaying a strategy. -/
def replay (c : TestCase) (settings : ReplaySettings) (strategy : Strategy) :
    Except SimulationError TestResult := do
  let start ← Pair.start settings c.subject c.mutant
  return .ofEnding c.id (← start.follow settings strategy settings.maxSteps 0)

/-- The result of replaying the strategy of the case. -/
def run (c : TestCase) (settings : ReplaySettings) : Except Failure TestResult :=
  match c.strategy with
  | none => .error (.noStrategy c.id)
  | some strategy => (c.replay settings strategy).mapError Failure.ofSimulation

end TestCase

end TimedMutation
