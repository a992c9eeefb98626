import TimedMutation.Proofs.Replay.Heads
import TimedMutation.Proofs.Replay.Moves

/-! The test model and the mutant are observed to do the same. A step of a replay is taken by both
or ends it, and what one of them did alone in a last step is at most one observation. -/

namespace TimedMutation

/-- What an outside observer sees of a step: how long a process waits, or its action. -/
inductive Observation where
  | delay (amount : Float)
  | action (text : String)

def TraceEntry.observation : TraceEntry → Observation
  | .delay _ amount => .delay amount
  | .action _ _ text => .action text

def Event.observation : Event → Observation
  | .delay amount => .delay amount
  | .action direction label => .action (direction.actionText label)

namespace Simulation

variable {s t : Simulation}

/-- The observations of the steps taken, in order. -/
def observations (s : Simulation) : List Observation := s.trace.map TraceEntry.observation

@[simp] theorem length_observations (s : Simulation) :
    s.observations.length = s.trace.length := by
  simp [observations]

theorem observations_of_delay {amount : Float} (h : s.delay amount = .ok t) :
    t.observations = s.observations ++ [.delay amount] := by
  obtain ⟨-, -, -, rfl⟩ := delay_eq_ok.mp h
  simp [observations, TraceEntry.observation]

theorem observations_of_take {e : Edge} (h : s.take e = .ok t) :
    t.observations = s.observations ++ [.action e.action] := by
  simp [observations, trace_of_take h, TraceEntry.observation]

theorem observations_of_performs {event : Event} (h : s.Performs event t) :
    t.observations = s.observations ++ [event.observation] := by
  cases event with
  | delay amount => exact observations_of_delay h
  | action direction label =>
    obtain ⟨x, -, hdirection, hlabel, htake⟩ := h
    rw [observations_of_take htake, Edge.action, hdirection, hlabel]
    rfl

theorem observations_of_start {c : Component} {process : String} {tieBreak : TieBreak}
    (h : start c process tieBreak = .ok s) : s.observations = [] := by
  obtain ⟨l, -, -, rfl⟩ := start_eq_ok.mp h
  rfl

end Simulation

namespace Pair

variable {settings : ReplaySettings} {strategy : Strategy} {start p q : Pair} {n : ℕ}

/-- The observations that a replay adds to those of both processes on its way from `p` to `q`. -/
structure Adds (p q : Pair) (test mutant : List Observation) : Prop where
  test : q.test.observations = p.test.observations ++ test
  mutant : q.mutant.observations = p.mutant.observations ++ mutant

/-- At most one process did something, and that is one step. -/
def AddsAlone (p q : Pair) : Prop :=
  p.Adds q [] [] ∨ (∃ o, p.Adds q [o] []) ∨ ∃ o, p.Adds q [] [o]

theorem adds_refl (p : Pair) : p.Adds p [] [] := ⟨by simp, by simp⟩

/-- A step that is taken adds one observation, the same to both processes. -/
theorem step_on {rule : StrategyRule} (h : p.step settings rule = .ok (.on q)) :
    ∃ o, p.Adds q [o] [o] := by
  obtain ⟨event, htest, hmutant⟩ := outcome_of_step h
  exact ⟨event.observation, Simulation.observations_of_performs htest,
    Simulation.observations_of_performs hmutant⟩

/-- A step that ends the replay is no success, and at most one process has taken it. -/
theorem step_stop {rule : StrategyRule} {reason : Reason}
    (h : p.step settings rule = .ok (.stop reason q)) :
    p.AddsAlone q ∧ reason.verdict ≠ .pass := by
  have hpartial : p.Partial reason q := outcome_of_step h
  refine ⟨?_, hpartial.verdict_ne_pass⟩
  cases hpartial with
  | still => exact .inl p.adds_refl
  | test htest =>
    exact .inr (.inl ⟨_, Simulation.observations_of_performs htest, by simp⟩)
  | mutant hmutant =>
    exact .inr (.inr ⟨_, by simp, Simulation.observations_of_performs hmutant⟩)

/-- Both processes have the same observations, and `n` of them. -/
structure Lockstep (p : Pair) (n : ℕ) : Prop where
  agree : p.test.observations = p.mutant.observations
  length : p.test.observations.length = n

theorem lockstep_start {subject mutant : Component}
    (h : Pair.start settings subject mutant = .ok start) : start.Lockstep 0 := by
  simp only [Pair.start] at h
  obtain ⟨test, htest, h⟩ := bind_eq_ok.mp h
  obtain ⟨mutant', hmutant, h⟩ := bind_eq_ok.mp h
  have hstart := pure_eq_ok.mp h
  subst hstart
  have htest' := Simulation.observations_of_start htest
  have hmutant' := Simulation.observations_of_start hmutant
  exact ⟨htest'.trans hmutant'.symm, by simp [htest']⟩

theorem Lockstep.next {o : Observation} (h : p.Lockstep n) (hadds : p.Adds q [o] [o]) :
    q.Lockstep (n + 1) where
  agree := by rw [hadds.test, hadds.mutant, h.agree]
  length := by rw [hadds.test, List.length_append, h.length, List.length_singleton]

theorem Reaches.lockstep (hstart : start.Lockstep 0) (h : Reaches settings strategy start n p) :
    p.Lockstep n := by
  induction h with
  | start => exact hstart
  | next _ _ _ hstep ih =>
    obtain ⟨o, hadds⟩ := step_on hstep
    exact ih.next hadds

/-- The processes agree up to a last step that at most one of them has taken. -/
theorem Lockstep.addsAlone (h : p.Lockstep n) (halone : p.AddsAlone q) :
    (q.test.trace.length = n ∨ q.test.trace.length = n + 1) ∧
      (q.mutant.trace.length = n ∨ q.mutant.trace.length = n + 1) ∧
      (q.test.trace.length = n ∨ q.mutant.trace.length = n) ∧
      q.test.observations.take n = q.mutant.observations.take n := by
  have htest : p.test.observations.length = n := h.length
  have hmutant : p.mutant.observations.length = n := h.agree ▸ h.length
  -- The observations from before the last step are a start of length `n` on both sides.
  have key : ∀ test mutant : List Observation, p.Adds q test mutant →
      q.test.trace.length = n + test.length ∧ q.mutant.trace.length = n + mutant.length ∧
        q.test.observations.take n = q.mutant.observations.take n := by
    intro test mutant hadds
    rw [← Simulation.length_observations, ← Simulation.length_observations, hadds.test,
      hadds.mutant, List.length_append, List.length_append, htest, hmutant,
      List.take_left' htest, List.take_left' hmutant]
    exact ⟨rfl, rfl, h.agree⟩
  rcases halone with hadds | ⟨o, hadds⟩ | ⟨o, hadds⟩
  · obtain ⟨ht, hm, htake⟩ := key _ _ hadds
    exact ⟨.inl ht, .inl hm, .inl ht, htake⟩
  · obtain ⟨ht, hm, htake⟩ := key _ _ hadds
    exact ⟨.inr ht, .inl hm, .inr hm, htake⟩
  · obtain ⟨ht, hm, htake⟩ := key _ _ hadds
    exact ⟨.inl ht, .inr hm, .inl ht, htake⟩

end Pair

/-- At the head of every round of a replay the test model and the mutant have been observed to do
the same, once for each step. So a replay takes no more steps than it may, a mutant that passes did
all of them, and one that fails did all but the last, which one process at least did not take. -/
theorem replay_in_lockstep (c : TestCase) (settings : ReplaySettings) (strategy : Strategy)
    {start : Pair} (hstart : Pair.start settings c.subject c.mutant = .ok start) :
    (∀ n p, Pair.Reaches settings strategy start n p →
      p.test.observations = p.mutant.observations ∧ p.test.observations.length = n ∧
        n ≤ settings.maxSteps) ∧
    ∀ r, c.replay settings strategy = .ok r →
      ∃ e, start.follow settings strategy settings.maxSteps 0 = .ok e ∧
        r = TestResult.ofEnding c.id e ∧ r.steps ≤ settings.maxSteps ∧
        (r.verdict = .pass →
          e.last.test.observations = e.last.mutant.observations ∧
            e.last.test.observations.length = settings.maxSteps) ∧
        (r.verdict = .fail → ∃ n, r.steps = n + 1 ∧
          (e.last.test.trace.length = n ∨ e.last.test.trace.length = n + 1) ∧
          (e.last.mutant.trace.length = n ∨ e.last.mutant.trace.length = n + 1) ∧
          (e.last.test.trace.length = n ∨ e.last.mutant.trace.length = n) ∧
          e.last.test.observations.take n = e.last.mutant.observations.take n) := by
  have hlock := Pair.lockstep_start hstart
  refine ⟨?_, ?_⟩
  · intro n p hp
    have hp' := hp.lockstep hlock
    exact ⟨hp'.agree, hp'.length, hp.le_maxSteps⟩
  · intro r hr
    rw [TestCase.replay_of_start hstart, map_eq_ok] at hr
    obtain ⟨e, hfollow, rfl⟩ := hr
    refine ⟨e, hfollow, rfl, ?_⟩
    cases Pair.follow_eq_ok_iff.mp hfollow with
    | @budget p hp =>
      have hp' := hp.lockstep hlock
      exact ⟨Nat.le_refl _, fun _ => ⟨hp'.agree, hp'.length⟩,
        by simp [TestResult.verdict, TestResult.ofEnding, Reason.verdict]⟩
    | @uncovered n p hp hn _ =>
      exact ⟨Nat.le_of_lt hn, by simp [TestResult.verdict, TestResult.ofEnding, Reason.verdict],
        by simp [TestResult.verdict, TestResult.ofEnding, Reason.verdict]⟩
    | @stopped n p last rule reason hp hn _ hstep =>
      obtain ⟨halone, hverdict⟩ := Pair.step_stop hstep
      exact ⟨hn, fun hpass => absurd hpass hverdict,
        fun _ => ⟨n, rfl, (hp.lockstep hlock).addsAlone halone⟩⟩

/-- A replay of one step, in which the mutant is pressed by a rule that does not name the action and
the test model follows. -/
theorem replay_in_lockstep_press :
    let strategy := Lamp.strategy (Lamp.rule "M" "Lit" none)
    ∃ e, Lamp.start.follow { maxSteps := 1 } strategy 1 0 = .ok e ∧ e.reason = .budget ∧
      e.last.test.observations = e.last.mutant.observations ∧
      e.last.test.observations.length = 1 := by
  intro strategy
  have hstep : Lamp.start.step { maxSteps := 1 } (.action (Lamp.rule "M" "Lit" none)) =
      .ok (.on ⟨Lamp.pressed Lamp.start.test, Lamp.pressed Lamp.start.mutant⟩) := by
    simp only [Pair.step, Pair.act, Pair.expected?, Pair.exchange, Simulation.fireRule,
      Simulation.peekRule?, Lamp.unqualifiedUpdate_rule]
    rfl
  have hfollow : Lamp.start.follow { maxSteps := 1 } strategy 1 0 =
      .ok ⟨.budget, 1, ⟨Lamp.pressed Lamp.start.test, Lamp.pressed Lamp.start.mutant⟩⟩ :=
    Pair.follow_rule_on rfl hstep
  have hstart := Lamp.start_eq { maxSteps := 1 } rfl rfl rfl
  obtain ⟨-, h⟩ := replay_in_lockstep Lamp.case { maxSteps := 1 } strategy hstart
  obtain ⟨e, hend, -, -, hpass, -⟩ := h _ (by rw [TestCase.replay_of_start hstart, hfollow]; rfl)
  obtain ⟨hagree, hlength⟩ := hpass rfl
  have he := Except.ok.inj (hend.symm.trans hfollow)
  exact ⟨e, hend, by rw [he], hagree, hlength⟩

end TimedMutation
