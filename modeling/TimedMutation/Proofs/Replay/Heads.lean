import TimedMutation.Proofs.Automaton.WellFormed
import TimedMutation.Proofs.Outcome
import TimedMutation.Replay.Run

/-! The pairs that a replay passes through, as a relation. The loop that counts its budget down and
the relation describe the same runs. -/

namespace TimedMutation
namespace Pair

variable {settings : ReplaySettings} {strategy : Strategy} {start p q : Pair} {n : ℕ} {e : Ending}

/-- The pairs at the head of the loop, each with the number of steps taken before it. -/
inductive Reaches (settings : ReplaySettings) (strategy : Strategy) (start : Pair) :
    ℕ → Pair → Prop
  | start : Reaches settings strategy start 0 start
  | next {n : ℕ} {p q : Pair} {rule : StrategyRule} :
      Reaches settings strategy start n p → n < settings.maxSteps →
      strategy.rule? p.test p.mutant settings.tieBreak = .ok (some rule) →
      p.step settings rule = .ok (.on q) → Reaches settings strategy start (n + 1) q

/-- The endings of a run: the budget is used up, no rule applies, or a step stops. -/
inductive Ends (settings : ReplaySettings) (strategy : Strategy) (start : Pair) : Ending → Prop
  | budget {p : Pair} :
      Reaches settings strategy start settings.maxSteps p →
      Ends settings strategy start ⟨.budget, settings.maxSteps, p⟩
  | uncovered {n : ℕ} {p : Pair} :
      Reaches settings strategy start n p → n < settings.maxSteps →
      strategy.rule? p.test p.mutant settings.tieBreak = .ok none →
      Ends settings strategy start ⟨.uncovered, n, p⟩
  | stopped {n : ℕ} {p last : Pair} {rule : StrategyRule} {reason : Reason} :
      Reaches settings strategy start n p → n < settings.maxSteps →
      strategy.rule? p.test p.mutant settings.tieBreak = .ok (some rule) →
      p.step settings rule = .ok (.stop reason last) →
      Ends settings strategy start ⟨reason, n + 1, last⟩

theorem Reaches.le_maxSteps (h : Reaches settings strategy start n p) : n ≤ settings.maxSteps := by
  cases h with
  | start => exact Nat.zero_le _
  | next _ hn _ _ => exact hn

theorem follow_zero : p.follow settings strategy 0 n = .ok ⟨.budget, n, p⟩ := rfl

theorem follow_uncovered {budget : ℕ}
    (hrule : strategy.rule? p.test p.mutant settings.tieBreak = .ok none) :
    p.follow settings strategy (budget + 1) n = .ok ⟨.uncovered, n, p⟩ := by
  rw [follow, hrule]
  rfl

theorem follow_rule {budget : ℕ} {rule : StrategyRule}
    (hrule : strategy.rule? p.test p.mutant settings.tieBreak = .ok (some rule)) :
    p.follow settings strategy (budget + 1) n = (do
      match ← p.step settings rule with
      | .on next => next.follow settings strategy budget (n + 1)
      | .stop reason last => return ⟨reason, n + 1, last⟩) := by
  rw [follow, hrule]
  rfl

theorem follow_rule_on {budget : ℕ} {rule : StrategyRule}
    (hrule : strategy.rule? p.test p.mutant settings.tieBreak = .ok (some rule))
    (hstep : p.step settings rule = .ok (.on q)) :
    p.follow settings strategy (budget + 1) n = q.follow settings strategy budget (n + 1) := by
  rw [follow_rule hrule, hstep, bind_ok]

theorem follow_rule_stop {budget : ℕ} {rule : StrategyRule} {reason : Reason}
    (hrule : strategy.rule? p.test p.mutant settings.tieBreak = .ok (some rule))
    (hstep : p.step settings rule = .ok (.stop reason q)) :
    p.follow settings strategy (budget + 1) n = .ok ⟨reason, n + 1, q⟩ := by
  rw [follow_rule hrule, hstep, bind_ok]
  rfl

theorem follow_rule_error {budget : ℕ} {rule : StrategyRule} {why : SimulationError}
    (hrule : strategy.rule? p.test p.mutant settings.tieBreak = .ok (some rule))
    (hstep : p.step settings rule = .error why) :
    p.follow settings strategy (budget + 1) n = .error why := by
  rw [follow_rule hrule, hstep, bind_error]

/-- A run that reaches a pair goes on from it with the rest of the budget. -/
theorem Reaches.follow_eq (h : Reaches settings strategy start n p) :
    start.follow settings strategy settings.maxSteps 0 =
      p.follow settings strategy (settings.maxSteps - n) n := by
  induction h with
  | start => rfl
  | @next n p q rule _ hn hrule hstep ih =>
    have hbudget : settings.maxSteps - n = settings.maxSteps - (n + 1) + 1 := by omega
    rw [ih, hbudget, follow_rule_on hrule hstep]

theorem ends_of_follow {budget : ℕ} (h : Reaches settings strategy start n p)
    (hbudget : n + budget = settings.maxSteps)
    (hend : p.follow settings strategy budget n = .ok e) : Ends settings strategy start e := by
  induction budget generalizing n p with
  | zero =>
    have hn : n = settings.maxSteps := by omega
    rw [follow_zero, Except.ok.injEq] at hend
    subst hn hend
    exact .budget h
  | succ budget ih =>
    have hn : n < settings.maxSteps := by omega
    cases hrule : strategy.rule? p.test p.mutant settings.tieBreak with
    | error why => simp [follow,hrule,inSimulation] at hend
    | ok found =>
      cases found with
      | none =>
        rw [follow_uncovered hrule, Except.ok.injEq] at hend
        exact hend ▸ .uncovered h hn hrule
      | some rule =>
        cases hstep : p.step settings rule with
        | error why => simp [follow_rule_error hrule hstep] at hend
        | ok move =>
          cases move with
          | on q =>
            rw [follow_rule_on hrule hstep] at hend
            exact ih (h.next hn hrule hstep) (by omega) hend
          | stop reason last =>
            rw [follow_rule_stop hrule hstep, Except.ok.injEq] at hend
            exact hend ▸ .stopped h hn hrule hstep

/-- The loop and the relation describe the same endings. -/
theorem follow_eq_ok_iff :
    start.follow settings strategy settings.maxSteps 0 = .ok e ↔
      Ends settings strategy start e := by
  constructor
  · exact fun h => ends_of_follow .start (by omega) h
  · intro h
    cases h with
    | budget hp => rw [hp.follow_eq, Nat.sub_self, follow_zero]
    | @uncovered n p hp hn hrule =>
      obtain ⟨budget, hbudget⟩ := Nat.exists_eq_add_of_lt hn
      have hrest : settings.maxSteps - n = budget + 1 := by omega
      rw [hp.follow_eq, hrest, follow_uncovered hrule]
    | @stopped n p last rule reason hp hn hrule hstep =>
      obtain ⟨budget, hbudget⟩ := Nat.exists_eq_add_of_lt hn
      have hrest : settings.maxSteps - n = budget + 1 := by omega
      rw [hp.follow_eq, hrest, follow_rule_stop hrule hstep]

end Pair

/-- The result of a replay is the view of its ending. -/
theorem TestCase.replay_of_start {c : TestCase} {settings : ReplaySettings} {strategy : Strategy}
    {start : Pair} (h : Pair.start settings c.subject c.mutant = .ok start) :
    c.replay settings strategy =
      (start.follow settings strategy settings.maxSteps 0).map (TestResult.ofEnding c.id) := by
  simp only [replay,h,bind_ok]
  cases start.follow settings strategy settings.maxSteps 0 <;> rfl

/-! ### A lamp -/

namespace Lamp

/-- The lamp against a copy of itself. -/
def case : TestCase := ⟨"lamp", .changeTarget, "", component, component, none⟩

/-- The two lamps before anything happens. -/
def start : Pair :=
  ⟨.atStart component "S" .firstDeclared "Idle", .atStart component "M" .firstDeclared "Idle"⟩

/-- What a lamp is after a press. -/
def pressed (s : Simulation) : Simulation :=
  s.commit { s.now with location := "Lit" } (.action "Idle" "Lit" "press?")

/-- A rule without conditions. -/
def rule (process destination : String) (sync : Option (String × Direction)) : ActionRule :=
  ⟨"", process, destination, sync, ""⟩

theorem unqualifiedUpdate_rule (process destination : String) (sync : Option (String × Direction)) :
    (rule process destination sync).unqualifiedUpdate = "" := by
  simp [rule, ActionRule.unqualifiedUpdate, Text.replaceAll]

/-- The strategy that has one rule, for two idle lamps. -/
def strategy (rule : ActionRule) : Strategy := ⟨[(⟨"S.Idle", "M.Idle", []⟩, [.action rule])]⟩

theorem start_eq (settings : ReplaySettings) (h : settings.testProcess = "S")
    (h' : settings.mutantProcess = "M") (h'' : settings.tieBreak = .firstDeclared) :
    Pair.start settings component component = .ok start := by
  simp only [Pair.start, h, h', h'']
  rfl

/-- The two lamps after a press of both. -/
def lit : Pair := ⟨pressed start.test, pressed start.mutant⟩

/-- The mutant is pressed by a rule that does not name the action, and the test model follows. -/
theorem step_press (settings : ReplaySettings) (h : settings.mutantProcess = "M") :
    start.step settings (.action (rule "M" "Lit" none)) = .ok (.on lit) := by
  simp only [Pair.step, Pair.act, h, Pair.expected?, Pair.exchange, Simulation.fireRule,
    Simulation.peekRule?, unqualifiedUpdate_rule]
  rfl

theorem replay_press :
    case.replay { maxSteps := 1 } (strategy (rule "M" "Lit" none)) =
      .ok (.ofEnding "lamp" ⟨.budget, 1, lit⟩) := by
  rw [TestCase.replay_of_start (start_eq { maxSteps := 1 } rfl rfl rfl),
    Pair.follow_rule_on rfl (step_press { maxSteps := 1 } rfl)]
  rfl

end Lamp

end TimedMutation
