import TimedMutation.Proofs.Replay.Heads
import TimedMutation.Proofs.Simulation.Steps

/-! A rule of the test model that the test model cannot take. Whether it ends the replay without a
verdict depends on whether the rule names its action: if it does, the mutant is asked first. -/

namespace TimedMutation

theorem Simulation.fireRule_of_peekRule?_eq_none {s : Simulation} {rule : ActionRule}
    (h : s.peekRule? rule = .ok none) :
    s.fireRule rule = s.fault (.noEdge s.location ("transition to '" ++ rule.destination ++ "'")) := by
  rw [fireRule, h, bind_ok]
  rfl

namespace Pair

variable {settings : ReplaySettings} {strategy : Strategy} {p : Pair} {n : ℕ} {rule : ActionRule}
  {label : String} {direction : Direction}

/-- How a replay ends where the mutant is asked for an action that the test model cannot take: with
a deviation, after the action if the mutant has taken it, or with the error of a broken model. -/
def afterMutant (p : Pair) (rule : ActionRule) (label : String) (direction : Direction) :
    Except SimulationError (Reason × Pair) :=
  let deviation (last : Pair) : Reason × Pair :=
    (.action (direction.actionText label) rule.destination last.test.location last.mutant.location,
      last)
  match p.mutant.fire direction label with
  | .ok (_, mutant) => .ok (deviation { p with mutant })
  | .error e => if e.isFatal then .error e else .ok (deviation p)

theorem verdict_of_afterMutant {x : Reason × Pair} (h : p.afterMutant rule label direction = .ok x) :
    x.1.verdict = .fail := by
  unfold afterMutant at h
  split at h
  · cases h
    rfl
  · split at h
    · simp at h
    · cases h
      rfl

theorem step_unnamed (htest : rule.process ≠ settings.mutantProcess)
    (huntakeable : p.test.peekRule? rule = .ok none) (hsync : rule.sync = none) :
    p.step settings (.action rule) = .ok (.stop .uncovered p) := by
  have hprocess : (rule.process == settings.mutantProcess) = false := by simpa using htest
  simp only [step, act, hprocess, Bool.false_eq_true, if_false, expected?, hsync, huntakeable]
  rfl

theorem step_named (htest : rule.process ≠ settings.mutantProcess)
    (huntakeable : p.test.peekRule? rule = .ok none) (hsync : rule.sync = some (label, direction)) :
    p.step settings (.action rule) =
      (p.afterMutant rule label direction).map fun x => .stop x.1 x.2 := by
  have hprocess : (rule.process == settings.mutantProcess) = false := by simpa using htest
  have htake := Simulation.fireRule_of_peekRule?_eq_none huntakeable
  simp only [step, act, hprocess, Bool.false_eq_true, if_false, expected?, hsync, bind_ok, exchange,
    afterMutant]
  cases p.mutant.fire direction label with
  | ok fired =>
    simp only [attempt, bind_ok, htake, Simulation.fault]
    rfl
  | error e =>
    by_cases hfatal : e.isFatal = true
    · simp only [attempt, hfatal, if_true, bind_error]
      rfl
    · simp only [attempt, hfatal]
      rfl

theorem follow_rule_stops {budget : ℕ} {rule : StrategyRule}
    {ending : Except SimulationError (Reason × Pair)}
    (hrule : strategy.rule? p.test p.mutant settings.tieBreak = .ok (some rule))
    (hstep : p.step settings rule = ending.map fun x => .stop x.1 x.2) :
    p.follow settings strategy (budget + 1) n = ending.map fun x => ⟨x.1, n + 1, x.2⟩ := by
  cases ending with
  | error e => exact follow_rule_error hrule hstep
  | ok x => exact follow_rule_stop hrule hstep

end Pair

/-- The test model cannot take the rule of its own that applies. The replay ends there without a
verdict and with the mutant where it was exactly if the rule names no action. Otherwise the mutant
is asked for that action first, and the replay ends with a deviation or an error. -/
theorem untakeable_rule_inconclusive_iff (c : TestCase) (settings : ReplaySettings)
    (strategy : Strategy) {start p : Pair} {n : ℕ} {rule : ActionRule}
    (hstart : Pair.start settings c.subject c.mutant = .ok start)
    (hreach : Pair.Reaches settings strategy start n p) (hn : n < settings.maxSteps)
    (hrule : strategy.rule? p.test p.mutant settings.tieBreak = .ok (some (.action rule)))
    (htest : rule.process ≠ settings.mutantProcess)
    (huntakeable : p.test.peekRule? rule = .ok none) :
    ((∃ e, start.follow settings strategy settings.maxSteps 0 = .ok e ∧
        e.reason.verdict = .inconclusive ∧ e.steps = n + 1 ∧ e.last.mutant = p.mutant) ↔
      rule.sync = none) ∧
    (rule.sync = none →
      c.replay settings strategy = .ok (.ofEnding c.id ⟨.uncovered, n + 1, p⟩)) ∧
    ∀ label direction, rule.sync = some (label, direction) →
      c.replay settings strategy = (p.afterMutant rule label direction).map fun x =>
        .ofEnding c.id ⟨x.1, n + 1, x.2⟩ := by
  have hfollow : start.follow settings strategy settings.maxSteps 0 =
      p.follow settings strategy (settings.maxSteps - (n + 1) + 1) n := by
    rw [hreach.follow_eq]
    congr 1
    omega
  have hunnamed : rule.sync = none →
      start.follow settings strategy settings.maxSteps 0 = .ok ⟨.uncovered, n + 1, p⟩ := by
    intro hsync
    rw [hfollow, Pair.follow_rule_stop hrule (Pair.step_unnamed htest huntakeable hsync)]
  have hnamed : ∀ label direction, rule.sync = some (label, direction) →
      start.follow settings strategy settings.maxSteps 0 =
        (p.afterMutant rule label direction).map fun x => ⟨x.1, n + 1, x.2⟩ := by
    intro label direction hsync
    rw [hfollow, Pair.follow_rule_stops hrule (Pair.step_named htest huntakeable hsync)]
  refine ⟨⟨?_, fun hsync => ⟨_, hunnamed hsync, rfl, rfl, rfl⟩⟩, ?_, ?_⟩
  · rintro ⟨e, hend, hverdict, -, -⟩
    by_contra hsome
    obtain ⟨sync, hsync⟩ := Option.ne_none_iff_exists'.mp hsome
    rw [hnamed sync.1 sync.2 hsync, map_eq_ok] at hend
    obtain ⟨x, hx, rfl⟩ := hend
    simp [Pair.verdict_of_afterMutant hx] at hverdict
  · intro hsync
    rw [TestCase.replay_of_start hstart, hunnamed hsync]
    rfl
  · intro label direction hsync
    rw [TestCase.replay_of_start hstart, hnamed label direction hsync]
    cases p.afterMutant rule label direction <;> rfl

/-- The test model cannot go from idle to idle, but the mutant is pressed all the same and counts as
told apart from it. -/
theorem untakeable_press :
    let press := Lamp.rule "S" "Idle" (some ("press", .input))
    Lamp.start.test.peekRule? press = .ok none ∧
      Lamp.case.replay {} (Lamp.strategy press) =
        .ok (.ofEnding "lamp" ⟨.action "press?" "Idle" "Idle" "Lit", 1,
          ⟨Lamp.start.test, Lamp.pressed Lamp.start.mutant⟩⟩) := by
  intro press
  have hpeek : Lamp.start.test.peekRule? press = .ok none := by
    simp only [Simulation.peekRule?, press, Lamp.unqualifiedUpdate_rule]
    rfl
  have hrule : (Lamp.strategy press).rule? Lamp.start.test Lamp.start.mutant .firstDeclared =
      .ok (some (.action press)) := rfl
  obtain ⟨-, -, h⟩ := untakeable_rule_inconclusive_iff Lamp.case {} (Lamp.strategy press)
    (Lamp.start_eq {} rfl rfl rfl) .start (by decide) hrule (by decide) hpeek
  refine ⟨hpeek, ?_⟩
  rw [h "press" .input rfl]
  rfl

end TimedMutation
