import TimedMutation.Proofs.Replay.Moves
import TimedMutation.Proofs.Replay.Heads

/-! Larger budgets. A run with a larger budget is the run with the smaller one, gone on with if it
ended only because its budget was used up. -/

namespace TimedMutation

theorem Reason.verdict_eq_pass {reason : Reason} : reason.verdict = .pass ↔ reason = .budget := by
  cases reason <;> simp [verdict]

namespace Pair

variable {settings : ReplaySettings} {strategy : Strategy} {n m : ℕ} {p : Pair} {e : Ending}

/-- Go on from an ending that only the budget brought about. -/
def resume (settings : ReplaySettings) (strategy : Strategy) (budget : ℕ) (e : Ending) :
    Except SimulationError Ending :=
  if e.reason = .budget then e.last.follow settings strategy budget e.steps else .ok e

theorem resume_of_ne {budget : ℕ} (h : e.reason ≠ .budget) :
    resume settings strategy budget e = .ok e := if_neg h

theorem follow_add (first rest n : ℕ) (p : Pair) :
    p.follow settings strategy (first + rest) n =
      p.follow settings strategy first n >>= resume settings strategy rest := by
  induction first generalizing n p with
  | zero => simp [follow_zero, resume]
  | succ first ih =>
    rw [Nat.succ_add]
    cases hrule : strategy.rule? p.test p.mutant settings.tieBreak with
    | error why => simp [follow, hrule, inSimulation]
    | ok found =>
      cases found with
      | none =>
        rw [follow_uncovered hrule, follow_uncovered hrule]
        rfl
      | some rule =>
        cases hstep : p.step settings rule with
        | error why => rw [follow_rule_error hrule hstep, follow_rule_error hrule hstep, bind_error]
        | ok move =>
          cases move with
          | on q => rw [follow_rule_on hrule hstep, follow_rule_on hrule hstep, ih]
          | stop reason last =>
            have hpartial : p.Partial reason last := outcome_of_step hstep
            have hreason : reason ≠ .budget :=
              fun h => hpartial.verdict_ne_pass (Reason.verdict_eq_pass.mpr h)
            rw [follow_rule_stop hrule hstep, follow_rule_stop hrule hstep, bind_ok,
              resume_of_ne hreason]

/-- The loop counts its budget down by itself and does not look at the settings for it. -/
theorem follow_maxSteps (settings : ReplaySettings) (maxSteps budget n : ℕ) (p : Pair) :
    p.follow { settings with maxSteps } strategy budget n =
      p.follow settings strategy budget n := by
  induction budget generalizing n p with
  | zero => rfl
  | succ budget ih =>
    simp only [follow, ih]
    rfl

/-- An ending that the budget did not bring about is that of every larger budget. -/
theorem follow_of_le (hle : n ≤ m) (h : p.follow settings strategy n 0 = .ok e)
    (hreason : e.reason ≠ .budget) : p.follow settings strategy m 0 = .ok e := by
  obtain ⟨rest, rfl⟩ := Nat.exists_eq_add_of_le hle
  rw [follow_add, h, bind_ok, resume_of_ne hreason]

theorem follow_error_of_le {why : SimulationError} (hle : n ≤ m)
    (h : p.follow settings strategy n 0 = .error why) :
    p.follow settings strategy m 0 = .error why := by
  obtain ⟨rest, rfl⟩ := Nat.exists_eq_add_of_le hle
  rw [follow_add, h, bind_error]

/-- A run that uses up a budget uses up every smaller one. -/
theorem follow_budget_of_le (hle : n ≤ m) (h : p.follow settings strategy m 0 = .ok e)
    (hreason : e.reason = .budget) :
    ∃ e', p.follow settings strategy n 0 = .ok e' ∧ e'.reason = .budget := by
  cases hn : p.follow settings strategy n 0 with
  | error why => simp [follow_error_of_le hle hn] at h
  | ok e' =>
    refine ⟨e', rfl, ?_⟩
    by_contra hne
    cases h.symm.trans (follow_of_le hle hn hne)
    exact hne hreason

end Pair

theorem TestCase.replay_maxSteps (c : TestCase) (settings : ReplaySettings) (strategy : Strategy)
    (maxSteps : ℕ) :
    c.replay { settings with maxSteps } strategy = (do
      let start ← Pair.start settings c.subject c.mutant
      (start.follow settings strategy maxSteps 0).map (TestResult.ofEnding c.id)) := by
  have hstart : Pair.start { settings with maxSteps } c.subject c.mutant =
      Pair.start settings c.subject c.mutant := rfl
  cases h : Pair.start settings c.subject c.mutant with
  | error why =>
    simp only [replay, hstart, h]
    rfl
  | ok start => rw [replay_of_start (hstart.trans h), Pair.follow_maxSteps, bind_ok]

/-- A replay that fails, ends without a verdict or is broken off by an error does so with every
larger budget, with the same result. One that passes with a budget passes with every smaller one. -/
theorem replay_decided_of_le (c : TestCase) (settings : ReplaySettings) (strategy : Strategy)
    {n m : ℕ} (hle : n ≤ m) :
    (∀ r, c.replay { settings with maxSteps := n } strategy = .ok r →
      r.verdict = .fail ∨ r.verdict = .inconclusive →
        c.replay { settings with maxSteps := m } strategy = .ok r) ∧
    (∀ why, c.replay { settings with maxSteps := n } strategy = .error why →
      c.replay { settings with maxSteps := m } strategy = .error why) ∧
    ∀ r, c.replay { settings with maxSteps := m } strategy = .ok r → r.verdict = .pass →
      ∃ r', c.replay { settings with maxSteps := n } strategy = .ok r' ∧ r'.verdict = .pass := by
  simp only [TestCase.replay_maxSteps]
  cases Pair.start settings c.subject c.mutant with
  | error why => simp
  | ok start =>
    simp only [bind_ok, map_eq_ok, map_eq_error]
    refine ⟨?_, fun why => Pair.follow_error_of_le hle, ?_⟩
    · rintro r ⟨e, hend, rfl⟩ hverdict
      have hreason : e.reason ≠ .budget := by
        intro hbudget
        simp [TestResult.verdict, TestResult.ofEnding, hbudget, Reason.verdict] at hverdict
      exact ⟨e, Pair.follow_of_le hle hend hreason, rfl⟩
    · rintro r ⟨e, hend, rfl⟩ hpass
      obtain ⟨e', hend', hbudget⟩ :=
        Pair.follow_budget_of_le hle hend (Reason.verdict_eq_pass.mp hpass)
      exact ⟨_, ⟨e', hend', rfl⟩, Reason.verdict_eq_pass.mpr hbudget⟩

/-- A lamp that is told apart in its first step is told apart with more steps, and one that passes
with a step passes without it. -/
theorem replay_decided_press :
    let wrong := Lamp.strategy (Lamp.rule "S" "Idle" (some ("press", .input)))
    let right := Lamp.strategy (Lamp.rule "M" "Lit" none)
    (∃ r, Lamp.case.replay { maxSteps := 1 } wrong = .ok r ∧ r.verdict = .fail ∧
      Lamp.case.replay { maxSteps := 7 } wrong = .ok r) ∧
    ∃ r, Lamp.case.replay { maxSteps := 0 } right = .ok r ∧ r.verdict = .pass := by
  intro wrong right
  have hstep : Lamp.start.step { maxSteps := 1 }
      (.action (Lamp.rule "S" "Idle" (some ("press", .input)))) =
        .ok (.stop (.action "press?" "Idle" "Idle" "Lit")
          ⟨Lamp.start.test, Lamp.pressed Lamp.start.mutant⟩) := by
    simp only [Pair.step, Pair.act, Pair.expected?, Pair.exchange, Simulation.fireRule,
      Simulation.peekRule?, Lamp.unqualifiedUpdate_rule]
    rfl
  have hwrong : Lamp.case.replay { maxSteps := 1 } wrong =
      .ok (.ofEnding "lamp" ⟨.action "press?" "Idle" "Idle" "Lit", 1,
        ⟨Lamp.start.test, Lamp.pressed Lamp.start.mutant⟩⟩) := by
    rw [TestCase.replay_of_start (Lamp.start_eq { maxSteps := 1 } rfl rfl rfl),
      Pair.follow_rule_stop rfl hstep]
    rfl
  obtain ⟨hdecided, -, -⟩ := replay_decided_of_le Lamp.case {} wrong (show 1 ≤ 7 by decide)
  obtain ⟨-, -, hpass⟩ := replay_decided_of_le Lamp.case {} right (show 0 ≤ 1 by decide)
  exact ⟨⟨_, hwrong, rfl, hdecided _ hwrong (.inl rfl)⟩, hpass _ Lamp.replay_press rfl⟩

end TimedMutation
