import TimedMutation.Proofs.Replay.Heads
import TimedMutation.Proofs.Replay.Moves

/-! A mutant that does not differ from the component under test. The two processes choose their edges
in different ways, but where an action leaves no choice they are in the same state again after every
joint step. -/

namespace TimedMutation

/-- No two edges share their source and their action. -/
def Component.Unambiguous (c : Component) : Prop :=
  (c.edges.map fun e => (e.source, e.direction, e.sync)).Nodup

instance (c : Component) : Decidable c.Unambiguous :=
  inferInstanceAs (Decidable (c.edges.map fun e => (e.source, e.direction, e.sync)).Nodup)

namespace Simulation

variable {s s' t t' : Simulation} {event : Event}

/-- Which values an update leaves depends on the declarations, and not on the name of the process. -/
theorem assignAll_of_component (h : s.component = t.component) {clocks : Bindings Float}
    {locals : Bindings Int} {values : List (String × Float)} {r : Bindings Float × Bindings Int}
    (hs : s.assignAll clocks locals values = .ok r) : t.assignAll clocks locals values = .ok r := by
  induction values generalizing clocks locals with
  | nil => exact hs
  | cons v values ih =>
    simp only [assignAll] at hs ⊢
    obtain ⟨next, hnext, hrest⟩ := bind_eq_ok.mp hs
    have ht : t.assign clocks locals v.1 v.2 = .ok next := by
      rw [assign_eq_ok, h] at hnext
      exact assign_eq_ok.mpr hnext
    rw [ht, bind_ok]
    exact ih hrest

theorem now_of_take (hcomponent : s.component = t.component) (hnow : s.now = t.now) {e : Edge}
    (hs : s.take e = .ok s') (ht : t.take e = .ok t') : s'.now = t'.now := by
  obtain ⟨u, values, clocks, locals, -, hu, hvalues, hassign, -, -, rfl⟩ := take_eq_ok.mp hs
  obtain ⟨u', values', clocks', locals', -, hu', hvalues', hassign', -, -, rfl⟩ := take_eq_ok.mp ht
  have hvaluation : s.valuation = t.valuation := congrArg Snapshot.valuation hnow
  cases hu.symm.trans hu'
  rw [hvaluation] at hvalues
  cases hvalues.symm.trans hvalues'
  have hassigned := assignAll_of_component hcomponent hassign
  rw [hnow] at hassigned
  cases hassigned.symm.trans hassign'
  rfl

theorem component_of_performs (h : s.Performs event t) : t.component = s.component := by
  cases event with
  | delay amount =>
    obtain ⟨-, -, -, rfl⟩ := delay_eq_ok.mp h
    rfl
  | action direction label =>
    obtain ⟨x, -, -, -, htake⟩ := h
    obtain ⟨-, -, -, -, -, -, -, -, -, -, rfl⟩ := take_eq_ok.mp htake
    rfl

/-- In the same state of an unambiguous component, the same event leads to the same state. -/
theorem now_of_performs (hunambiguous : s.component.Unambiguous)
    (hcomponent : s.component = t.component) (hnow : s.now = t.now) (hs : s.Performs event s')
    (ht : t.Performs event t') : s'.now = t'.now := by
  cases event with
  | delay amount =>
    obtain ⟨-, -, -, rfl⟩ := delay_eq_ok.mp hs
    obtain ⟨-, -, -, rfl⟩ := delay_eq_ok.mp ht
    rw [commit_now, commit_now, hnow]
  | action direction label =>
    obtain ⟨x, hx, hdirection, hlabel, hs⟩ := hs
    obtain ⟨y, hy, hdirection', hlabel', ht⟩ := ht
    obtain ⟨hx, hsource⟩ := mem_leaving hx
    obtain ⟨hy, hsource'⟩ := mem_leaving hy
    have hlocation : s.location = t.location := congrArg Snapshot.location hnow
    rw [← hcomponent] at hy
    have hedge : x.1 = y.1 := List.inj_on_of_nodup_map hunambiguous hx hy
      (by rw [hsource, hsource', hlocation, hdirection, hdirection', hlabel, hlabel'])
    rw [hedge] at hs
    exact now_of_take hcomponent hnow hs ht

end Simulation

namespace Pair

variable {settings : ReplaySettings} {strategy : Strategy} {start p q : Pair} {n : ℕ}

/-- Both processes run the same unambiguous component, and are in the same state. -/
structure Twins (p : Pair) : Prop where
  unambiguous : p.test.component.Unambiguous
  component : p.test.component = p.mutant.component
  now : p.test.now = p.mutant.now

theorem Twins.joint (h : p.Twins) (hjoint : p.Joint q) : q.Twins := by
  obtain ⟨event, htest, hmutant⟩ := hjoint
  have htest' := Simulation.component_of_performs htest
  have hmutant' := Simulation.component_of_performs hmutant
  exact ⟨htest' ▸ h.unambiguous, by rw [htest', hmutant', h.component],
    Simulation.now_of_performs h.unambiguous h.component h.now htest hmutant⟩

theorem twins_start {c : Component} (hc : c.Unambiguous)
    (h : Pair.start settings c c = .ok start) : start.Twins := by
  obtain ⟨test, htest, h⟩ := bind_eq_ok.mp h
  obtain ⟨mutant, hmutant, h⟩ := bind_eq_ok.mp h
  cases pure_eq_ok.mp h
  obtain ⟨l, hl, -, rfl⟩ := Simulation.start_eq_ok.mp htest
  obtain ⟨l', hl', -, rfl⟩ := Simulation.start_eq_ok.mp hmutant
  cases hl.symm.trans hl'
  exact ⟨hc, rfl, rfl⟩

theorem Reaches.twins (hstart : start.Twins) (h : Reaches settings strategy start n p) :
    p.Twins := by
  induction h with
  | start => exact hstart
  | next _ _ _ hstep ih => exact ih.joint (outcome_of_step hstep)

end Pair

/-- A mutant that is the component under test, in which an action leaves no choice, is in the same
state as the test model at the head of every round. So a replay that ends with success or without a
verdict leaves both in the same state. -/
theorem identical_mutant_in_step (c : TestCase) (settings : ReplaySettings) (strategy : Strategy)
    (hsame : c.mutant = c.subject) (hunambiguous : c.subject.Unambiguous) :
    (∀ start n p, Pair.start settings c.subject c.mutant = .ok start →
      Pair.Reaches settings strategy start n p →
        p.test.location = p.mutant.location ∧ p.test.now.clocks = p.mutant.now.clocks ∧
          p.test.now.locals = p.mutant.now.locals) ∧
    ∀ r, c.replay settings strategy = .ok r → r.verdict = .pass ∨ r.verdict = .inconclusive →
      r.test = r.mutant := by
  have hhead : ∀ {start n p}, Pair.start settings c.subject c.mutant = .ok start →
      Pair.Reaches settings strategy start n p → p.Twins := by
    intro start n p hstart hp
    rw [hsame] at hstart
    exact hp.twins (Pair.twins_start hunambiguous hstart)
  refine ⟨?_, ?_⟩
  · intro start n p hstart hp
    have hnow := (hhead hstart hp).now
    exact ⟨congrArg Snapshot.location hnow, congrArg Snapshot.clocks hnow,
      congrArg Snapshot.locals hnow⟩
  · intro r hr hverdict
    obtain ⟨start, hstart, -⟩ := bind_eq_ok.mp hr
    rw [TestCase.replay_of_start hstart, map_eq_ok] at hr
    obtain ⟨e, hfollow, rfl⟩ := hr
    cases Pair.follow_eq_ok_iff.mp hfollow with
    | budget hp => exact (hhead hstart hp).now
    | uncovered hp => exact (hhead hstart hp).now
    | stopped hp _ _ hstep =>
      have hpartial : Pair.Partial _ _ _ := Pair.outcome_of_step hstep
      have hlast := hpartial.eq_of_inconclusive (hverdict.resolve_left hpartial.verdict_ne_pass)
      rw [hlast]
      exact (hhead hstart hp).now

/-- A lamp and its copy are both lit by one press. -/
theorem identical_lamps_in_step :
    let strategy := Lamp.strategy (Lamp.rule "M" "Lit" none)
    Lamp.component.Unambiguous ∧
      ∃ r, Lamp.case.replay { maxSteps := 1 } strategy = .ok r ∧ r.verdict = .pass ∧
        r.test.location = "Lit" ∧ r.test = r.mutant := by
  intro strategy
  have hunambiguous : Lamp.component.Unambiguous := by decide
  obtain ⟨-, hsame⟩ :=
    identical_mutant_in_step Lamp.case { maxSteps := 1 } strategy rfl hunambiguous
  exact ⟨hunambiguous, _, Lamp.replay_press, rfl, rfl, hsame _ Lamp.replay_press (.inl rfl)⟩

end TimedMutation
