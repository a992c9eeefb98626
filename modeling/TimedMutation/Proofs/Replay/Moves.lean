import TimedMutation.Proofs.Simulation.Steps
import TimedMutation.Replay.Basic

/-! What one step of a replay can do. Either the same happens in both processes and the replay goes
on, or it ends after something has happened in at most one of them. -/

namespace TimedMutation

/-- What can happen in a process: it waits, or takes an edge with an action. -/
inductive Event where
  | delay (amount : Float)
  | action (direction : Direction) (label : String)

namespace Simulation

variable {s t : Simulation} {direction : Direction} {label : String} {x : NumberedEdge}

/-- The event takes a process from one state to the other. -/
def Performs (s : Simulation) : Event → Simulation → Prop
  | .delay amount, t => s.delay amount = .ok t
  | .action direction label, t =>
    ∃ x ∈ s.leaving, x.1.direction = direction ∧ x.1.sync = label ∧ s.take x.1 = .ok t

theorem performs_of_fire (h : s.fire direction label = .ok (x, t)) :
    s.Performs (.action direction label) t := by
  obtain ⟨hedge, htake⟩ := fire_eq_ok.mp h
  obtain ⟨hleaves, hdirection, hlabel⟩ := of_enabledEdge?_eq_some hedge
  exact ⟨x, hleaves, hdirection, hlabel, htake⟩

end Simulation

namespace Pair

variable {settings : ReplaySettings} {p q : Pair} {rule : ActionRule} {label : String}
  {direction : Direction} {reason : Reason}

/-- The edge that the acting process takes for a rule has the action that is expected of it. -/
theorem performs_of_fireRule {acting t : Simulation} {x : NumberedEdge}
    (hexpected : expected? acting rule = .ok (some (label, direction)))
    (h : acting.fireRule rule = .ok (x, t)) : acting.Performs (.action direction label) t := by
  obtain ⟨hpeek, htake⟩ := Simulation.fireRule_eq_ok.mp h
  obtain ⟨hleaves, hfits⟩ := Simulation.of_peekRule?_eq_some hpeek
  unfold expected? at hexpected
  cases hsync : rule.sync with
  | none =>
    simp only [hsync, hpeek, Except.map, Except.ok.injEq, Option.map_some, Option.some.injEq,
      Prod.mk.injEq] at hexpected
    exact ⟨x, hleaves, hexpected.2, hexpected.1, htake⟩
  | some sync =>
    simp only [hsync, Except.ok.injEq, Option.some.injEq] at hexpected
    obtain ⟨hlabel, hdirection⟩ := Simulation.action_of_fits hfits (hexpected ▸ hsync)
    exact ⟨x, hleaves, hdirection, hlabel, htake⟩

/-- The move of the mutant in an exchange, by the rule if it acts and else by the action. -/
theorem performs_mutant {mutantActs : Bool} {x : NumberedEdge} {t : Simulation}
    (hexpected : expected? (if mutantActs then p.mutant else p.test) rule =
      .ok (some (label, direction)))
    (h : (if mutantActs then p.mutant.fireRule rule else p.mutant.fire direction label) =
      .ok (x, t)) : p.mutant.Performs (.action direction label) t := by
  cases mutantActs with
  | true => exact performs_of_fireRule hexpected h
  | false => exact Simulation.performs_of_fire h

theorem performs_test {mutantActs : Bool} {x : NumberedEdge} {t : Simulation}
    (hexpected : expected? (if mutantActs then p.mutant else p.test) rule =
      .ok (some (label, direction)))
    (h : (if mutantActs then p.test.fire direction label else p.test.fireRule rule) =
      .ok (x, t)) : p.test.Performs (.action direction label) t := by
  cases mutantActs with
  | true => exact Simulation.performs_of_fire h
  | false => exact performs_of_fireRule hexpected h

/-- The same event happens in both processes. -/
def Joint (p q : Pair) : Prop :=
  ∃ event, p.test.Performs event q.test ∧ p.mutant.Performs event q.mutant

/-- Nothing happens, or an event in one process that the other does not follow. -/
inductive Partial (p : Pair) : Reason → Pair → Prop
  | still {reason : Reason} : reason.verdict ≠ .pass → Partial p reason p
  | test {event : Event} {t : Simulation} {reason : Reason} :
      p.test.Performs event t → reason.verdict = .fail → Partial p reason { p with test := t }
  | mutant {event : Event} {t : Simulation} {reason : Reason} :
      p.mutant.Performs event t → reason.verdict = .fail → Partial p reason { p with mutant := t }

/-- How a step goes: jointly and on, or to the end. -/
def Outcome (p : Pair) : Move → Prop
  | .on q => p.Joint q
  | .stop reason q => p.Partial reason q

theorem outcome_delay {amount : Float} {move : Move} (h : p.delay amount = .ok move) :
    p.Outcome move := by
  simp only [delay] at h
  obtain ⟨test, htest, h⟩ := bind_eq_ok.mp h
  cases test with
  | none =>
    cases pure_eq_ok.mp h
    exact .still (by simp [Reason.verdict])
  | some test =>
    have htest' : p.test.Performs (.delay amount) test := attempt_eq_ok_some.mp htest
    obtain ⟨mutant, hmutant, h⟩ := bind_eq_ok.mp h
    cases mutant with
    | none =>
      cases pure_eq_ok.mp h
      exact .test htest' rfl
    | some mutant =>
      cases pure_eq_ok.mp h
      exact ⟨.delay amount, htest', attempt_eq_ok_some.mp hmutant⟩

theorem outcome_withoutAction {mutantActs : Bool} {move : Move}
    (h : p.withoutAction rule mutantActs = .ok move) : p.Outcome move := by
  simp only [withoutAction] at h
  cases mutantActs with
  | false =>
    cases pure_eq_ok.mp h
    exact .still (by simp [Reason.verdict])
  | true =>
    obtain ⟨found, -, h⟩ := bind_eq_ok.mp h
    cases found with
    | none =>
      cases pure_eq_ok.mp h
      exact .still (by simp [Reason.verdict])
    | some x =>
      cases pure_eq_ok.mp h
      exact .still (by simp [Reason.verdict])

theorem outcome_exchange {mutantActs : Bool} {move : Move}
    (hexpected : expected? (if mutantActs then p.mutant else p.test) rule =
      .ok (some (label, direction)))
    (h : p.exchange rule mutantActs label direction = .ok move) : p.Outcome move := by
  simp only [exchange] at h
  obtain ⟨mutant, hmutant, h⟩ := bind_eq_ok.mp h
  cases mutant with
  | none =>
    cases pure_eq_ok.mp h
    exact .still (by simp [Reason.verdict])
  | some mutant =>
    have hmutant' := performs_mutant hexpected (attempt_eq_ok_some.mp hmutant)
    obtain ⟨test, htest, h⟩ := bind_eq_ok.mp h
    cases test with
    | none =>
      cases pure_eq_ok.mp h
      exact .mutant hmutant' rfl
    | some test =>
      cases pure_eq_ok.mp h
      exact ⟨_, performs_test hexpected (attempt_eq_ok_some.mp htest), hmutant'⟩

/-- Everything that a step can do when it is no error. -/
theorem outcome_of_step {rule : StrategyRule} {move : Move}
    (h : p.step settings rule = .ok move) : p.Outcome move := by
  cases rule with
  | delay condition => exact outcome_delay h
  | action rule =>
    simp only [step, act] at h
    obtain ⟨expected, hexpected, h⟩ := bind_eq_ok.mp h
    cases expected with
    | none => exact outcome_withoutAction h
    | some sync => exact outcome_exchange hexpected h

theorem Partial.verdict_ne_pass (h : p.Partial reason q) : reason.verdict ≠ .pass := by
  cases h with
  | still hverdict => exact hverdict
  | test _ hfail => simp [hfail]
  | mutant _ hfail => simp [hfail]

/-- An end without a verdict comes before anything happens. -/
theorem Partial.eq_of_inconclusive (h : p.Partial reason q)
    (hverdict : reason.verdict = .inconclusive) : q = p := by
  cases h with
  | still => rfl
  | test _ hfail => simp [hfail] at hverdict
  | mutant _ hfail => simp [hfail] at hverdict

end Pair

end TimedMutation
