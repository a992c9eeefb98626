import TimedMutation.Engine.Pool
import TimedMutation.Engine.Settings
import TimedMutation.Mutation.Score
import TimedMutation.Replay.Run
import TimedMutation.Strategy.Reader

/-! Test plans: many test cases, the engines that find their strategies, and the report. -/

namespace TimedMutation

/-- How a test case ended. -/
inductive CaseStatus where
  | completed (result : TestResult)
  | errored (message : String)

structure CaseOutcome where
  caseId : String
  operator : MutationClass
  status : CaseStatus

namespace CaseOutcome

/-- The verdict, if the case has one. -/
def result? (o : CaseOutcome) : Option MutantResult :=
  match o.status with
  | .completed r => some ⟨o.caseId, o.operator, r.verdict⟩
  | .errored _ => none

def ofResult (c : TestCase) (r : Except Failure TestResult) : CaseOutcome where
  caseId := c.id
  operator := c.operator
  status :=
    match r with
    | .ok result => .completed result
    | .error failure => .errored failure.message

end CaseOutcome

/-- What an engine answered, and how long it took in nanoseconds. -/
structure EngineReply where
  answer : Except EngineError String
  elapsed : Nat

/-- What finds strategies: an answer to a case on an attempt, and a pause of some milliseconds. -/
structure Engine (m : Type → Type) where
  synthesize : TestCase → (attempt : Nat) → m EngineReply
  pause : Nat → m Unit

/-- The answer of a reply that is in time. A failure is reported as it is, however long it took. -/
def EngineReply.within (r : EngineReply) (caseId : String) (limit : Nat) : Except EngineError String :=
  match r.answer with
  | .error e => .error e
  | .ok text => if limit * 1000000 < r.elapsed then .error (.timeout caseId limit) else .ok text

structure Plan where
  cases : List TestCase
  replay : ReplaySettings
  engine : EngineSettings
  /-- The plan stops once it has as many outcomes; without a number it runs to its end. -/
  stopAfter : Option Nat := none

namespace Plan

/-- The outcome of a case whose strategy is given, or could not be found or read. -/
def judge (p : Plan) (c : TestCase) (strategy : Except Failure Strategy) : CaseOutcome :=
  .ofResult c do
    let s ← strategy
    (c.replay p.replay s).mapError Failure.ofSimulation

/-- The strategy that an engine's text writes. -/
def strategyOf (c : TestCase) (answer : Except EngineError String) : Except Failure Strategy :=
  match answer with
  | .error e => .error (.engine c.id e)
  | .ok text => (Strategy.ofText text).mapError Failure.strategy

/-- The answer of an engine to a case, after retries. -/
def synthesize {m : Type → Type} [Monad m] (p : Plan) (engine : Engine m) (c : TestCase) :
    m (Except EngineError String) :=
  p.engine.retry.run engine.pause fun attempt => do
    return (← engine.synthesize c attempt).within c.id p.engine.callLimit

end Plan

/-- The outcomes of a plan in the order of its cases, and what they come to. -/
structure PlanReport where
  outcomes : List CaseOutcome
  /-- Cases that were never started. -/
  skipped : Nat
  stopped : Bool

namespace PlanReport

def results (r : PlanReport) : List MutantResult := r.outcomes.filterMap CaseOutcome.result?

def score (r : PlanReport) : MutationScore := .ofResults r.results

/-- Cases that ended with an error. -/
def errors (r : PlanReport) : Nat := r.outcomes.countP fun o => o.result?.isNone

theorem errors_add_total (r : PlanReport) :
    r.errors + r.score.overall.total = r.outcomes.length := by
  have total : r.score.overall.total = r.results.length := Tally.total_ofResults r.results
  rw [total]
  unfold errors results
  induction r.outcomes with
  | nil => rfl
  | cons o os ih =>
    cases h : o.result? <;> simp [h] <;> omega

end PlanReport

end TimedMutation
