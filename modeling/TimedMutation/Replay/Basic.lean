import TimedMutation.Mutation.Score
import TimedMutation.Simulation.Step
import TimedMutation.Strategy.Lookup

/-! Replaying a strategy: the test model and a mutant, step by step side by side. The mutant plays
the system under test. -/

namespace TimedMutation

structure ReplaySettings where
  maxSteps : Nat := 100
  /-- How long a delay rule waits. -/
  delayStep : Float := 1.0
  tieBreak : TieBreak := .firstDeclared
  /-- The process name of the test model in strategies. -/
  testProcess : String := "S"
  /-- The process name of the mutant in strategies. -/
  mutantProcess : String := "M"

/-- Why a replay ends. -/
inductive Reason where
  /-- No rule applies, or the test model cannot take the transition of the rule that does. -/
  | uncovered
  /-- One of the processes cannot wait. -/
  | delay
  /-- One of the processes cannot take the expected action; the locations are those at the end. -/
  | action (expected destination test mutant : String)
  /-- Every step was taken by both. -/
  | budget
  deriving DecidableEq, Repr

namespace Reason

def verdict : Reason → Verdict
  | uncovered => .inconclusive
  | delay | action _ _ _ _ => .fail
  | budget => .pass

def message : Reason → String
  | uncovered => "strategy does not cover observed state"
  | delay => "unexpected deviation during delay"
  | action expected destination test mutant =>
    "observed action differs from expected action: expected " ++ expected ++ " towards '" ++
      destination ++ "', test model in '" ++ test ++ "', mutant in '" ++ mutant ++ "'"
  | budget => "no deviation within step budget"

end Reason

/-- The test model and the mutant. -/
structure Pair where
  test : Simulation
  mutant : Simulation

/-- Where a step leads: on, or to the end of the replay. -/
inductive Move where
  | on (next : Pair)
  | stop (reason : Reason) (last : Pair)

/-- A step that may be rejected. Only a broken model is an error; anything else is a deviation. -/
def attempt {α : Type} : Except SimulationError α → Except SimulationError (Option α)
  | .ok a => .ok (some a)
  | .error e => if e.isFatal then .error e else .ok none

theorem attempt_eq_ok_some {α : Type} {r : Except SimulationError α} {a : α} :
    attempt r = .ok (some a) ↔ r = .ok a := by
  cases r with
  | ok b => simp [attempt]
  | error e => simp only [attempt]; split <;> simp

namespace Pair

/-- Both processes wait, the test model first. -/
def delay (p : Pair) (amount : Float) : Except SimulationError Move := do
  match ← attempt (p.test.delay amount) with
  | none => return .stop .delay p
  | some test =>
    match ← attempt (p.mutant.delay amount) with
    | none => return .stop .delay { p with test }
    | some mutant => return .on ⟨test, mutant⟩

/-- The end where a process does not take the expected action. -/
def deviate (p : Pair) (rule : ActionRule) (expected : String) : Move :=
  .stop (.action expected rule.destination p.test.location p.mutant.location) p

/-- The action of a rule: the one that it names, or that of the edge that the acting process would
take. -/
def expected? (acting : Simulation) (rule : ActionRule) :
    Except SimulationError (Option (String × Direction)) :=
  match rule.sync with
  | some sync => .ok (some sync)
  | none => (acting.peekRule? rule).map fun found => found.map fun (e, _) => (e.sync, e.direction)

/-- The end where no action is expected of the acting process. A mutant that cannot take the
transition deviates from the action that the test model would have taken. -/
def withoutAction (p : Pair) (rule : ActionRule) (mutantActs : Bool) :
    Except SimulationError Move := do
  if mutantActs then
    match ← p.test.peekRule? rule with
    | some (e, _) => return p.deviate rule e.action
    | none => return p.deviate rule "transition"
  else return .stop .uncovered p

/-- The mutant takes the expected action, then the test model does. The acting process takes the
transition of the rule, the other one any enabled edge with its action. -/
def exchange (p : Pair) (rule : ActionRule) (mutantActs : Bool) (label : String)
    (direction : Direction) : Except SimulationError Move := do
  let expected := direction.actionText label
  match ← attempt (if mutantActs then p.mutant.fireRule rule else p.mutant.fire direction label) with
  | none => return p.deviate rule expected
  | some (_, mutant) =>
    let p := { p with mutant }
    match ← attempt (if mutantActs then p.test.fire direction label else p.test.fireRule rule) with
    | none => return p.deviate rule expected
    | some (_, test) => return .on { p with test }

/-- Both processes take the action of a rule. -/
def act (p : Pair) (mutantProcess : String) (rule : ActionRule) : Except SimulationError Move := do
  let mutantActs := rule.process == mutantProcess
  match ← expected? (if mutantActs then p.mutant else p.test) rule with
  | none => p.withoutAction rule mutantActs
  | some (label, direction) => p.exchange rule mutantActs label direction

def step (p : Pair) (settings : ReplaySettings) : StrategyRule → Except SimulationError Move
  | .delay _ => p.delay settings.delayStep
  | .action rule => p.act settings.mutantProcess rule

end Pair

end TimedMutation
