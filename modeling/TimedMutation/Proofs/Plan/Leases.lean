import TimedMutation.Proofs.Plan.Events

/-! A plan that has its pool for itself: no worker waits for an engine, and all of them are idle in the
end. -/

namespace TimedMutation

/-- The engine that a worker holds. -/
def Worker.engine? : Worker → Option ℕ
  | .calling _ _ e => some e
  | .polling | .taking | .acquiring _ _ | .judging _ _ _ | .recording _ _ | .ended => none

/-- The engines that the workers hold. -/
def PlanState.held (s : PlanState) : List ℕ := s.workers.filterMap Worker.engine?

/-- No engine answers that a pool is exhausted. -/
def Engine.NeverExhausted {σ : Type} (engine : Engine (StateM σ)) : Prop :=
  ∀ c attempt w waited, ((engine.synthesize c attempt).run w).1.answer ≠ .error (.exhausted waited)

namespace Plan

variable {σ : Type} {p : Plan} {engine : Engine (StateM σ)} {s t : PlanState}
  {worker worker' : Worker} {pool : Pool}

/-! ### Leases of workers -/

theorem Moves.lends (hmove : p.Moves engine s worker t worker') {others engines : List ℕ}
    (h : s.pool.Lends (worker.engine?.toList ++ others) engines) :
    t.pool.Lends (worker'.engine?.toList ++ others) engines := by
  cases hmove with
  | acquire hgiven hpool => exact h.acquire hpool
  | answer hanswer => exact h.release
  | halt | poll | take | leave | given | starve | judge | record | rest => exact h

/-- A plan keeps to what its pool lends, and to the workers that it started with. -/
structure Supplied (p : Plan) (pool : Pool) (s : PlanState) : Prop where
  lends : s.pool.Lends s.held pool.idle
  workers : s.workers.length = p.workerCount pool

theorem supplied_start (hidle : pool.available = pool.capacity) :
    p.Supplied pool (p.start pool) where
  lends := by
    have hheld : (p.start pool).held = [] := by
      simp [PlanState.held, start, Worker.engine?, List.filterMap_replicate]
    rw [hheld]
    exact Pool.lends_idle hidle
  workers := List.length_replicate

theorem Supplied.happens {e : PlanEvent} (h : p.Supplied pool s)
    (hhappens : p.Happens engine s e t) : p.Supplied pool t := by
  refine ⟨?_, hhappens.length_workers.trans h.workers⟩
  cases hhappens with
  | nobody | stop => exact h.lends
  | @work before after worker worker' t hworkers hmove =>
    have hlends := hmove.lends (h.lends.perm (filterMap_workers hworkers Worker.engine?))
    have hheld := filterMap_workers (s := { t with workers := before ++ worker' :: after }) rfl
      Worker.engine?
    exact hlends.perm hheld.symm

/-- There are no more workers than engines, and one that asks for an engine holds none. -/
theorem Supplied.exists_acquire (h : p.Supplied pool s) (hidle : pool.available = pool.capacity)
    (hcapacity : 1 ≤ pool.capacity) {i : ℕ} {c : TestCase} (hworker : .acquiring i c ∈ s.workers)
    (limit : ℕ) : ∃ e rest, s.pool.acquire limit = .ok (e, rest) := by
  obtain ⟨before, after, hworkers⟩ := List.append_of_mem hworker
  have hheld : s.held.length ≤ (before ++ after).length := by
    rw [PlanState.held, (filterMap_workers hworkers Worker.engine?).length_eq]
    exact List.length_filterMap_le _ _
  have hcount := h.workers
  have hsame : s.pool.capacity = pool.capacity := h.lends.capacity.trans hidle
  refine h.lends.exists_acquire ?_ limit
  rw [hworkers] at hcount
  simp only [workerCount, List.length_append, List.length_cons] at hheld hcount
  omega

theorem Supplied.fed (h : p.Supplied pool s) (hidle : pool.available = pool.capacity)
    (hcapacity : 1 ≤ pool.capacity) : Fed False s := by
  intro i c hworker hnone
  obtain ⟨e, rest, hlease⟩ := h.exists_acquire hidle hcapacity hworker 0
  rw [Pool.acquire_eq_ok.mp hlease] at hnone
  cases hnone

/-! ### Answers -/

theorem synthesize_ne_exhausted (hengine : engine.NeverExhausted) (c : TestCase) (w : σ)
    (waited : ℕ) : ((p.synthesize engine c).run w).1 ≠ .error (.exhausted waited) := by
  refine RetryPolicy.run_of_calls (fun answer => answer ≠ .error (.exhausted waited)) _ _ ?_ w
  intro attempt w
  have hanswer := hengine c attempt w waited
  change ((engine.synthesize c attempt).run w).1.within c.id p.engine.callLimit ≠ _
  cases hreply : ((engine.synthesize c attempt).run w).1.answer with
  | error failure =>
    rw [hreply] at hanswer
    simpa only [EngineReply.within, hreply] using hanswer
  | ok text =>
    simp only [EngineReply.within, hreply]
    split <;> simp

/-- Where the pool never starves, no case fails for want of an engine. -/
theorem Finds.ne_exhausted {c : TestCase} {strategy : Except Failure Strategy}
    (h : p.Finds engine False c strategy) (hengine : engine.NeverExhausted) (waited : ℕ) :
    strategy ≠ .error (.engine c.id (.exhausted waited)) := by
  cases h with
  | given => simp
  | @answered answer w w' hgiven hanswer =>
    have hne := synthesize_ne_exhausted (p := p) hengine c w waited
    rw [hanswer] at hne
    cases answer with
    | error failure =>
      intro heq
      cases heq
      exact hne rfl
    | ok text =>
      cases hread : Strategy.ofText text <;> simp [strategyOf, hread, Except.mapError]
  | starved hstarving => exact hstarving.elim

/-! ### Conservation -/

/-- A pool whose engines are all idle loses none of them, whatever its users do and however the calls
end; and a plan that has it for itself always finds an engine, and returns them all. -/
theorem engines_are_conserved (pool : Pool) (hidle : pool.available = pool.capacity)
    (engine : Engine (StateM σ)) :
    (∀ (events : List PoolEvent) (w : σ) (l : Lending),
      ((Lending.perform engine ⟨pool, []⟩ events).run w).1 = l →
        (l.pool.idle ++ l.leases).Perm pool.idle ∧
        l.pool.available + l.leases.length = l.pool.capacity ∧ l.pool.capacity = pool.capacity ∧
        ∀ limit failure, l.pool.acquire limit = .error failure →
          l.pool.idle = [] ∧ ∀ w, (l.happen engine (.acquire limit)).run w = (l, w)) ∧
    (1 ≤ pool.capacity → ∀ (p : Plan) (events : List PlanEvent) (w : σ) (s : PlanState),
      ((p.perform engine (p.start pool) events).run w).1 = s →
        (∀ i c, .acquiring i c ∈ s.workers →
          ∃ e rest, s.pool.acquire p.engine.acquireLimit = .ok (e, rest)) ∧
        (∀ f ∈ s.finished, ∃ c strategy, p.cases[f.1]? = some c ∧
          p.Finds engine False c strategy ∧ f.2 = p.judge c strategy ∧
          (engine.NeverExhausted →
            ∀ waited, strategy ≠ .error (.engine c.id (.exhausted waited)))) ∧
        (s.Done → s.pool.idle.Perm pool.idle ∧ s.pool.available = s.pool.capacity)) := by
  constructor
  · rintro events w l rfl
    have hlends := Lending.lends_perform engine (l := ⟨pool, []⟩) (Pool.lends_idle hidle) events w
    refine ⟨hlends.same, hlends.available_add, hlends.capacity.trans hidle,
      fun limit failure hfailure => ?_⟩
    · exact ⟨(Pool.acquire_eq_error.mp hfailure).1, Lending.happen_acquire_error hfailure⟩
  · intro hcapacity p events w s hs
    obtain ⟨hsupplied, hsound⟩ : p.Supplied pool s ∧ p.Sound engine False s := by
      rw [← hs]
      refine perform_induction (fun s => p.Supplied pool s ∧ p.Sound engine False s) ?_
        ⟨supplied_start hidle, sound_startWith pool _⟩ w
      rintro e - s t ⟨hsupplied, hsound⟩ hhappens
      exact ⟨hsupplied.happens hhappens, hsound.happens hhappens (hsupplied.fed hidle hcapacity)⟩
    refine ⟨fun i c hworker => hsupplied.exists_acquire hidle hcapacity hworker _, ?_, ?_⟩
    · intro f hf
      obtain ⟨c, hcase, strategy, hfinds, houtcome⟩ := hsound.finished f hf
      exact ⟨c, strategy, hcase, hfinds, houtcome, hfinds.ne_exhausted⟩
    · intro hdone
      have hheld : s.held = [] := by
        refine List.filterMap_eq_nil_iff.mpr fun worker hworker => ?_
        rw [hdone worker hworker]
        rfl
      have hlends := hsupplied.lends
      rw [hheld] at hlends
      exact ⟨by simpa using hlends.same, hlends.available_add⟩

/-- Two engines are lent, a third lease is refused and one engine comes back; and a plan for two lamps
that is stopped early leaves both engines idle. -/
theorem engines_are_conserved_two_lamps :
    (Pool.ofSize 2).available = (Pool.ofSize 2).capacity ∧ 1 ≤ (Pool.ofSize 2).capacity ∧
      Lamp.engine.NeverExhausted ∧ Lamp.stopped.Done ∧
      (∃ l : Lending,
        ((Lending.perform Lamp.engine ⟨.ofSize 2, []⟩ [.acquire 10, .acquire 10, .acquire 10,
          .synthesize 0 Lamp.plan Lamp.case, .drop 1]).run 0).1 = l ∧
        l.leases = [0] ∧ (l.pool.idle ++ l.leases).Perm [1, 0] ∧ l.pool.available = 1) ∧
      (∀ f ∈ Lamp.stopped.finished, ∃ c strategy, Lamp.plan.cases[f.1]? = some c ∧
        f.2 = Lamp.plan.judge c strategy ∧
        ∀ waited, strategy ≠ .error (.engine c.id (.exhausted waited))) ∧
      Lamp.stopped.pool.idle.Perm [1, 0] := by
  have hnever : Lamp.engine.NeverExhausted := by
    intro c attempt w waited h
    cases h
  obtain ⟨hlending, hplan⟩ := engines_are_conserved (.ofSize 2) rfl Lamp.engine
  obtain ⟨-, hfinished, hend⟩ := hplan (by decide) Lamp.plan Lamp.stoppedEarly 0 Lamp.stopped rfl
  refine ⟨rfl, by decide, hnever, Lamp.done_stopped, ⟨_, rfl, rfl, (hlending _ 0 _ rfl).1, rfl⟩, ?_,
    (hend Lamp.done_stopped).1⟩
  intro f hf
  obtain ⟨c, strategy, hcase, -, houtcome, hexhausted⟩ := hfinished f hf
  exact ⟨c, strategy, hcase, houtcome, hexhausted hnever⟩

end Plan

end TimedMutation
