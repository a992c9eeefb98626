import TimedMutation.Proofs.Bindings
import TimedMutation.Proofs.Replay.Heads
import TimedMutation.Proofs.Simulation.Progress

/-! The rule that applies to two processes does not depend on which of them is named first. Where the
names of the processes hold no point, no variable of one of them is a variable of the other. -/

namespace TimedMutation

theorem StrategyState.matches_comm (state : StrategyState) (first second : String)
    {observed observed' : List String} (h : ∀ e, e ∈ observed ↔ e ∈ observed') :
    state.matches first second observed = state.matches second first observed' := by
  have hobserved : ∀ e, observed.contains e = observed'.contains e := by
    intro e
    rw [Bool.eq_iff_iff, List.contains_iff_mem, List.contains_iff_mem, h]
  simp only [StrategyState.matches, hobserved, Bool.or_comm]

namespace Simulation

variable {s t : Simulation}

/-- The name of a process without a point is what stands before the first point. -/
theorem takeWhile_qualify (hs : '.' ∉ s.process.toList) (name : String) :
    (s.qualify name).toList.takeWhile (· != '.') = s.process.toList := by
  have hprocess : ∀ c ∈ s.process.toList, (c != '.') = true := by
    intro c hc
    rw [bne_iff_ne]
    rintro rfl
    exact hs hc
  rw [qualify, String.toList_append, String.toList_append, List.append_assoc,
    List.takeWhile_append_of_pos hprocess]
  simp

theorem qualify_ne (hne : s.process ≠ t.process) (hs : '.' ∉ s.process.toList)
    (ht : '.' ∉ t.process.toList) (name name' : String) : s.qualify name ≠ t.qualify name' := by
  intro heq
  have hprocess := takeWhile_qualify hs name
  rw [heq, takeWhile_qualify ht] at hprocess
  exact hne (String.toList_inj.mp hprocess).symm

theorem exists_qualify_of_mem_names {x : String} (h : x ∈ s.qualifiedValuation.names) :
    ∃ name, s.qualify name = x := by
  simp only [qualifiedValuation, Bindings.mem_names_ofList, List.map_map, List.mem_map,
    Function.comp_def] at h
  obtain ⟨e, -, rfl⟩ := h
  exact ⟨e.1, rfl⟩

theorem union_qualifiedValuation_comm (hne : s.process ≠ t.process) (hs : '.' ∉ s.process.toList)
    (ht : '.' ∉ t.process.toList) :
    s.qualifiedValuation.union t.qualifiedValuation =
      t.qualifiedValuation.union s.qualifiedValuation := by
  refine Bindings.union_comm fun x hx hx' => ?_
  obtain ⟨name, rfl⟩ := exists_qualify_of_mem_names hx
  obtain ⟨name', heq⟩ := exists_qualify_of_mem_names hx'
  exact qualify_ne hne hs ht name name' heq.symm

end Simulation

namespace Strategy

theorem entry?_comm (strategy : Strategy) (first second : Simulation) (tieBreak : TieBreak) :
    strategy.entry? first second tieBreak = strategy.entry? second first tieBreak := by
  have hobserved : ∀ e, e ∈ first.localEqualities ++ second.localEqualities ↔
      e ∈ second.localEqualities ++ first.localEqualities := by
    intro e
    rw [List.mem_append, List.mem_append, or_comm]
  simp only [ entry?, StrategyState.matches_comm _ first.qualifiedLocation _ hobserved]

/-- The rule that applies to two processes, whether there is one, and the error of a condition that
has no value are the same in either order of the processes, whatever their components and states. -/
theorem rule_lookup_symmetric (strategy : Strategy) (first second : Simulation)
    (tieBreak : TieBreak) (hne : first.process ≠ second.process)
    (hfirst : '.' ∉ first.process.toList) (hsecond : '.' ∉ second.process.toList) :
    strategy.rule? first second tieBreak = strategy.rule? second first tieBreak := by
  rw [rule?, rule?, entry?_comm, Simulation.union_qualifiedValuation_comm hne hfirst hsecond]

/-- Two idle lamps are looked up by their places and levels, in either order. -/
theorem rule_lookup_symmetric_lamps :
    let test := Simulation.atStart Lamp.timed "S" .firstDeclared "Idle"
    let mutant := Simulation.atStart Lamp.timed "M" .firstDeclared "Idle"
    let press : StrategyRule := .action (Lamp.rule "M" "Lit" none)
    let strategy : Strategy := ⟨[(⟨"M.Idle", "S.Idle", ["S.n=0", "M.n=0"]⟩, [press])]⟩
    test.process ≠ mutant.process ∧ '.' ∉ test.process.toList ∧ '.' ∉ mutant.process.toList ∧
      strategy.rule? test mutant .firstDeclared = .ok (some press) ∧
      strategy.rule? mutant test .firstDeclared = .ok (some press) := by
  intro test mutant press strategy
  have hne : test.process ≠ mutant.process := by decide
  have htest : '.' ∉ test.process.toList := by decide
  have hmutant : '.' ∉ mutant.process.toList := by decide
  have hrule : strategy.rule? test mutant .firstDeclared = .ok (some press) := rfl
  refine ⟨hne, htest, hmutant, hrule, ?_⟩
  rw [← rule_lookup_symmetric strategy test mutant .firstDeclared hne htest hmutant]
  exact hrule

end Strategy
end TimedMutation
