import TimedMutation.Plan.Run
import TimedMutation.Proofs.Engine.Lending
import TimedMutation.Proofs.Replay.Heads

/-! Plans under every order of events: the workers step in any order, and the plan may be stopped
between any two steps. What one event can do is said once; what holds after a run follows from it by
induction on the events. -/

namespace TimedMutation

inductive PlanEvent where
  /-- The worker with a number steps. -/
  | work (number : ℕ)
  /-- The plan is stopped from outside. -/
  | stop
  deriving DecidableEq

/-- Every worker has ended. -/
def PlanState.Done (s : PlanState) : Prop := ∀ worker ∈ s.workers, worker = .ended

namespace Plan

section

variable {m : Type → Type} [Monad m]

/-- The state before the first step of so many workers. -/
def startWith (p : Plan) (pool : Pool) (workers : ℕ) : PlanState :=
  { p.start pool with workers := List.replicate workers .polling }

def happen (p : Plan) (engine : Engine m) (s : PlanState) : PlanEvent → m PlanState
  | .work number => p.step engine s number
  | .stop => return { s with stopped := true }

/-- The state after events in their order. -/
def perform (p : Plan) (engine : Engine m) (s : PlanState) (events : List PlanEvent) :
    m PlanState :=
  events.foldlM (p.happen engine) s

theorem steps_eq_perform (p : Plan) (engine : Engine m) (s : PlanState) (schedule : List ℕ) :
    p.steps engine s schedule = p.perform engine s (schedule.map .work) := by
  rw [perform, List.foldlM_map]
  rfl

theorem run_eq_perform (p : Plan) (engine : Engine m) (pool : Pool) :
    p.run engine pool =
      p.perform engine (p.startWith pool (p.workerCount pool)) ((p.turns pool).map .work) :=
  steps_eq_perform p engine _ _

end

variable {σ : Type} {p : Plan} {engine : Engine (StateM σ)} {s t : PlanState}
  {worker worker' : Worker}

/-! ### What one event can do -/

/-- The moves of a worker: what it does to the state, and the worker after it. -/
inductive Moves (p : Plan) (engine : Engine (StateM σ)) (s : PlanState) :
    Worker → PlanState → Worker → Prop
  | halt (hstopped : s.stopped = true) : Moves p engine s .polling s .ended
  | poll (hstopped : s.stopped = false) : Moves p engine s .polling s .taking
  | take {c : TestCase} (hcase : p.cases[s.next]? = some c) :
    Moves p engine s .taking { s with next := s.next + 1 } (.acquiring s.next c)
  | leave (hcase : p.cases.length ≤ s.next) :
    Moves p engine s .taking { s with next := s.next + 1 } .ended
  | given {i : ℕ} {c : TestCase} {strategy : Strategy} (hgiven : c.strategy = some strategy) :
    Moves p engine s (.acquiring i c) s (.judging i c (.ok strategy))
  | acquire {i : ℕ} {c : TestCase} {e : ℕ} {pool : Pool} (hgiven : c.strategy = none)
    (hpool : s.pool.acquire p.engine.acquireLimit = .ok (e, pool)) :
    Moves p engine s (.acquiring i c) { s with pool } (.calling i c e)
  | starve {i : ℕ} {c : TestCase} {failure : EngineError} (hgiven : c.strategy = none)
    (hpool : s.pool.acquire p.engine.acquireLimit = .error failure) :
    Moves p engine s (.acquiring i c) s (.judging i c (.error (.engine c.id failure)))
  | answer {i : ℕ} {c : TestCase} {e : ℕ} {answer : Except EngineError String} {w w' : σ}
    (hanswer : (p.synthesize engine c).run w = (answer, w')) :
    Moves p engine s (.calling i c e) { s with pool := s.pool.release e }
      (.judging i c (strategyOf c answer))
  | judge {i : ℕ} {c : TestCase} {strategy : Except Failure Strategy} :
    Moves p engine s (.judging i c strategy) s (.recording i (p.judge c strategy))
  | record {i : ℕ} {o : CaseOutcome} :
    Moves p engine s (.recording i o)
      { s with
        finished := (i, o) :: s.finished
        stopped := s.stopped || p.stopAfter == some (s.finished.length + 1) } .polling
  | rest : Moves p engine s .ended s .ended

theorem moves_of_work {w w' : σ} (h : (p.work engine s worker).run w = ((t, worker'), w')) :
    p.Moves engine s worker t worker' := by
  cases worker with
  | polling =>
    cases h
    cases hstopped : s.stopped with
    | true => exact .halt hstopped
    | false => exact .poll hstopped
  | taking =>
    cases h
    cases hcase : p.cases[s.next]? with
    | some c => exact .take hcase
    | none => exact .leave (List.getElem?_eq_none_iff.mp hcase)
  | acquiring i c =>
    simp only [work] at h
    split at h
    · rename_i strategy hgiven
      cases h
      exact .given hgiven
    · rename_i hgiven
      split at h
      · rename_i e pool hpool
        cases h
        exact .acquire hgiven hpool
      · rename_i failure hpool
        cases h
        exact .starve hgiven hpool
  | calling i c e =>
    cases h
    exact .answer rfl
  | judging i c strategy =>
    cases h
    exact .judge
  | recording i o =>
    cases h
    exact .record
  | ended =>
    cases h
    exact .rest

theorem Moves.next_le (hmove : p.Moves engine s worker t worker') : s.next ≤ t.next := by
  cases hmove with
  | take | leave => exact Nat.le_succ _
  | halt | poll | given | acquire | starve | answer | judge | record | rest => exact Nat.le_refl _

/-- What an event makes of a state: one worker moves and the others stay where they are, or nobody
has the number, or the plan is stopped. -/
inductive Happens (p : Plan) (engine : Engine (StateM σ)) (s : PlanState) :
    PlanEvent → PlanState → Prop
  | work {before after : List Worker} {worker worker' : Worker} {t : PlanState}
    (hworkers : s.workers = before ++ worker :: after)
    (hmove : p.Moves engine s worker t worker') :
    Happens p engine s (.work before.length) { t with workers := before ++ worker' :: after }
  | nobody {number : ℕ} (hnumber : s.workers.length ≤ number) : Happens p engine s (.work number) s
  | stop : Happens p engine s .stop { s with stopped := true }

theorem happens_of_run {e : PlanEvent} {w : σ} :
    p.Happens engine s e ((p.happen engine s e).run w).1 := by
  cases e with
  | stop => exact .stop
  | work number =>
    cases hworker : s.workers[number]? with
    | none =>
      have hstep : ((p.happen engine s (.work number)).run w).1 = s := by
        simp only [happen, step, hworker]
        rfl
      rw [hstep]
      exact .nobody (List.getElem?_eq_none_iff.mp hworker)
    | some worker =>
      obtain ⟨hnumber, hget⟩ := List.getElem?_eq_some_iff.mp hworker
      obtain ⟨t, worker', w', hwork⟩ : ∃ t worker' w',
        (p.work engine s worker).run w = ((t, worker'), w') := ⟨_, _, _, rfl⟩
      obtain ⟨before, after, hworkers, hlength, hset⟩ : ∃ before after,
          s.workers = before ++ s.workers[number] :: after ∧ before.length = number ∧
            s.workers.set number worker' = before ++ worker' :: after :=
        List.exists_of_set hnumber
      have hstep : ((p.happen engine s (.work number)).run w).1 =
          { t with workers := s.workers.set number worker' } := by
        simp only [happen, step, hworker, StateT.run_bind, hwork]
        rfl
      rw [hget] at hworkers
      rw [hstep, hset, ← hlength]
      exact .work hworkers (moves_of_work hwork)

/-- What every event of a run keeps holds after the run. -/
theorem perform_induction (holds : PlanState → Prop) {events : List PlanEvent}
    (hstep : ∀ e ∈ events, ∀ s t, holds s → p.Happens engine s e t → holds t) (h : holds s)
    (w : σ) : holds ((p.perform engine s events).run w).1 := by
  induction events generalizing s w with
  | nil => exact h
  | cons e events ih =>
    rw [List.forall_mem_cons] at hstep
    have hnext := hstep.1 s _ h (happens_of_run (w := w))
    exact ih hstep.2 hnext _

theorem Happens.length_workers {e : PlanEvent} (hhappens : p.Happens engine s e t) :
    t.workers.length = s.workers.length := by
  cases hhappens with
  | nobody | stop => rfl
  | work hworkers => simp [hworkers]

theorem length_workers_perform (pool : Pool) (workers : ℕ) (events : List PlanEvent) (w : σ) :
    ((p.perform engine (p.startWith pool workers) events).run w).1.workers.length = workers := by
  refine perform_induction (fun s => s.workers.length = workers) ?_ ?_ w
  · exact fun _ _ _ _ h hhappens => hhappens.length_workers.trans h
  · exact List.length_replicate

/-- What the workers of a state carry is what the one that steps carries and what the others do. -/
theorem filterMap_workers {before after : List Worker} (hworkers : s.workers = before ++ worker :: after)
    (carries : Worker → Option ℕ) :
    (s.workers.filterMap carries).Perm
      ((carries worker).toList ++ (before ++ after).filterMap carries) := by
  rw [hworkers]
  have hperm := (List.perm_middle : (before ++ worker :: after).Perm _).filterMap carries
  cases hcarries : carries worker with
  | none => rwa [List.filterMap_cons_none hcarries] at hperm
  | some x => rwa [List.filterMap_cons_some hcarries] at hperm

/-! ### Cases and their outcomes -/

/-- What may be found as the strategy of a case: the one that is given, or what an engine answers, or
nothing where the pool is `starving` and has no engine for the case. -/
inductive Finds (p : Plan) (engine : Engine (StateM σ)) (starving : Prop) (c : TestCase) :
    Except Failure Strategy → Prop
  | given {strategy : Strategy} (hgiven : c.strategy = some strategy) :
    Finds p engine starving c (.ok strategy)
  | answered {answer : Except EngineError String} {w w' : σ} (hgiven : c.strategy = none)
    (hanswer : (p.synthesize engine c).run w = (answer, w')) :
    Finds p engine starving c (strategyOf c answer)
  | starved (hstarving : starving) (hgiven : c.strategy = none) :
    Finds p engine starving c (.error (.engine c.id (.exhausted p.engine.acquireLimit)))

/-- An outcome of a case: how a strategy that is found for it is judged. -/
def Concludes (p : Plan) (engine : Engine (StateM σ)) (starving : Prop) (c : TestCase)
    (o : CaseOutcome) : Prop :=
  ∃ strategy, p.Finds engine starving c strategy ∧ o = p.judge c strategy

/-- The case that a worker has is the one with its number, and what the worker knows of the case was
found for it. -/
def Holds (p : Plan) (engine : Engine (StateM σ)) (starving : Prop) : Worker → Prop
  | .polling | .taking | .ended => True
  | .acquiring i c => p.cases[i]? = some c
  | .calling i c _ => p.cases[i]? = some c ∧ c.strategy = none
  | .judging i c strategy => p.cases[i]? = some c ∧ p.Finds engine starving c strategy
  | .recording i o => ∃ c, p.cases[i]? = some c ∧ p.Concludes engine starving c o

variable {starving : Prop}

/-- A worker that asks for an engine finds none only where the pool may starve. -/
def Fed (starving : Prop) (s : PlanState) : Prop :=
  ∀ i c, .acquiring i c ∈ s.workers → s.pool.idle = [] → starving

theorem Moves.holds (hmove : p.Moves engine s worker t worker') (hworker : worker ∈ s.workers)
    (hfed : Fed starving s) (h : p.Holds engine starving worker) :
    p.Holds engine starving worker' := by
  cases hmove with
  | halt | poll | leave | record | rest => trivial
  | take hcase => exact hcase
  | given hgiven => exact ⟨h, .given hgiven⟩
  | acquire hgiven => exact ⟨h, hgiven⟩
  | starve hgiven hpool =>
    obtain ⟨hidle, rfl⟩ := Pool.acquire_eq_error.mp hpool
    exact ⟨h, .starved (hfed _ _ hworker hidle) hgiven⟩
  | answer hanswer => exact ⟨h.1, .answered h.2 hanswer⟩
  | judge => exact ⟨_, h.1, _, h.2, rfl⟩

/-- The outcomes of a state are outcomes of the cases with their numbers. -/
structure Sound (p : Plan) (engine : Engine (StateM σ)) (starving : Prop) (s : PlanState) :
    Prop where
  workers : ∀ worker ∈ s.workers, p.Holds engine starving worker
  finished : ∀ f ∈ s.finished, ∃ c, p.cases[f.1]? = some c ∧ p.Concludes engine starving c f.2

theorem sound_startWith (pool : Pool) (workers : ℕ) :
    p.Sound engine starving (p.startWith pool workers) where
  workers worker hworker := by
    rw [List.eq_of_mem_replicate hworker]
    trivial
  finished _ hf := by cases hf

theorem Moves.finished (hmove : p.Moves engine s worker t worker') :
    t.finished = s.finished ∨
      ∃ i o, worker = .recording i o ∧ t.finished = (i, o) :: s.finished := by
  cases hmove with
  | record => exact .inr ⟨_, _, rfl, rfl⟩
  | halt | poll | take | leave | given | acquire | starve | answer | judge | rest => exact .inl rfl

theorem Sound.happens {e : PlanEvent} (h : p.Sound engine starving s)
    (hhappens : p.Happens engine s e t) (hfed : Fed starving s) :
    p.Sound engine starving t := by
  cases hhappens with
  | nobody => exact h
  | stop => exact ⟨h.workers, h.finished⟩
  | work hworkers hmove =>
    have hall := h.workers
    rw [hworkers, List.forall_mem_append, List.forall_mem_cons] at hall
    obtain ⟨hbefore, hworker, hafter⟩ := hall
    constructor
    · simp only [List.forall_mem_append, List.forall_mem_cons]
      exact ⟨hbefore, hmove.holds (by simp [hworkers]) hfed hworker, hafter⟩
    · rcases hmove.finished with hfinished | ⟨i, o, rfl, hfinished⟩
      · rw [hfinished]
        exact h.finished
      · rw [hfinished, List.forall_mem_cons]
        exact ⟨hworker, h.finished⟩

end Plan

namespace Lamp

/-- Two lamps whose strategies engines have to find. -/
def plan : Plan where
  cases := [case, { case with id := "other lamp" }]
  replay := {}
  engine := {}

/-- An engine that counts its calls and knows no strategy. -/
def engine : Engine (StateM ℕ) where
  synthesize c _ := do
    modify (· + 1)
    return ⟨.error (.notFound c.id "strategies"), 0⟩
  pause _ := return ()

/-- The plan is stopped while the first of two workers has a case. -/
def stoppedEarly : List PlanEvent :=
  [.work 0, .work 0, .stop, .work 1, .work 0, .work 0, .work 0, .work 0, .work 0]

/-- The plan after these events. -/
def stopped : PlanState :=
  ((plan.perform engine (plan.startWith (.ofSize 2) 2) stoppedEarly).run 0).1

theorem done_stopped : stopped.Done := by
  have hworkers : stopped.workers = [.ended, .ended] := rfl
  simp [PlanState.Done, hworkers]

end Lamp

end TimedMutation
