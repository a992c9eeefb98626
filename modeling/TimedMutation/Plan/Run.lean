import TimedMutation.Plan.Basic

/-! Running a plan: workers that take cases one after another and share a pool of engines. -/

namespace TimedMutation

/-- What a worker does next. -/
inductive Worker where
  /-- Look whether the plan was stopped. -/
  | polling
  /-- Take the number of the next case. -/
  | taking
  /-- Acquire an engine for the case, unless its strategy is given. -/
  | acquiring (index : Nat) (testCase : TestCase)
  /-- Have the engine find the strategy, and return it. -/
  | calling (index : Nat) (testCase : TestCase) (engine : Nat)
  /-- Replay the strategy. -/
  | judging (index : Nat) (testCase : TestCase) (strategy : Except Failure Strategy)
  /-- Put the outcome to the others. -/
  | recording (index : Nat) (outcome : CaseOutcome)
  | ended

/-- What the workers of a plan share, and where each of them stands. -/
structure PlanState where
  /-- The number of the case that is taken next. -/
  next : Nat
  stopped : Bool
  pool : Pool
  workers : List Worker
  /-- The outcomes so far with the numbers of their cases, the latest first. -/
  finished : List (Nat × CaseOutcome)

namespace Plan

/-- The number of workers: one for each engine, but no more than cases and no less than one. -/
def workerCount (p : Plan) (pool : Pool) : Nat := max 1 (min pool.capacity p.cases.length)

/-- The state before the first step. A plan that stops after no outcome is stopped from the
start. -/
def start (p : Plan) (pool : Pool) : PlanState where
  next := 0
  stopped := p.stopAfter == some 0
  pool := pool
  workers := List.replicate (p.workerCount pool) .polling
  finished := []

variable {m : Type → Type} [Monad m]

/-- The step of a worker, and the worker after it. The state's own list of workers is left as it
is. -/
def work (p : Plan) (engine : Engine m) (s : PlanState) : Worker → m (PlanState × Worker)
  | .polling => return (s, if s.stopped then .ended else .taking)
  | .taking =>
    return ({ s with next := s.next + 1 },
      match p.cases[s.next]? with
      | some c => .acquiring s.next c
      | none => .ended)
  | .acquiring i c =>
    match c.strategy with
    | some strategy => return (s, .judging i c (.ok strategy))
    | none =>
      match s.pool.acquire p.engine.acquireLimit with
      | .ok (e, pool) => return ({ s with pool }, .calling i c e)
      | .error e => return (s, .judging i c (.error (.engine c.id e)))
  | .calling i c e => do
    let answer ← p.synthesize engine c
    return ({ s with pool := s.pool.release e }, .judging i c (strategyOf c answer))
  | .judging i c strategy => return (s, .recording i (p.judge c strategy))
  | .recording i outcome =>
    let finished := (i, outcome) :: s.finished
    return ({ s with finished, stopped := s.stopped || p.stopAfter == some finished.length },
      .polling)
  | .ended => return (s, .ended)

/-- The step of the worker with a number. -/
def step (p : Plan) (engine : Engine m) (s : PlanState) (number : Nat) : m PlanState :=
  match s.workers[number]? with
  | none => return s
  | some worker => do
    let (t, after) ← p.work engine s worker
    return { t with workers := s.workers.set number after }

/-- The steps of workers in the order of a schedule. -/
def steps (p : Plan) (engine : Engine m) (s : PlanState) (schedule : List Nat) : m PlanState :=
  schedule.foldlM (p.step engine) s

/-- A schedule in which every worker ends: the workers take turns, and a worker that took every case
would be done after as many turns. -/
def turns (p : Plan) (pool : Pool) : List Nat :=
  (List.replicate (6 * p.cases.length + 2) (List.range (p.workerCount pool))).flatten

/-- The outcomes in the order of the cases. -/
def outcomesInOrder (p : Plan) (s : PlanState) : List CaseOutcome :=
  (List.range p.cases.length).filterMap fun i => s.finished.lookup i

def report (p : Plan) (s : PlanState) : PlanReport where
  outcomes := p.outcomesInOrder s
  skipped := p.cases.length - (p.outcomesInOrder s).length
  stopped := s.stopped

/-- The state after every worker has ended. -/
def run (p : Plan) (engine : Engine m) (pool : Pool) : m PlanState :=
  p.steps engine (p.start pool) (p.turns pool)

end Plan

end TimedMutation
