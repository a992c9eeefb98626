import TimedMutation.Automaton.Basic

/-! Strategies: what to do in each pair of process locations. -/

namespace TimedMutation

/-- Two qualified locations and the values of locals that were observed there. -/
structure StrategyState where
  first : String
  second : String
  equalities : List String
  deriving DecidableEq, Repr

/-- Whether a state describes two locations, in either order, and what was observed of the locals
holds all that it asks for. -/
def StrategyState.matches (s : StrategyState) (first second : String) (observed : List String) :
    Bool :=
  ((s.first == first && s.second == second) || (s.first == second && s.second == first)) &&
    s.equalities.all fun e => observed.contains e

/-- One transition of `process` into `destination`. -/
structure ActionRule where
  /-- When the rule applies, over qualified clocks and locals. -/
  condition : String
  process : String
  destination : String
  /-- The action, where the rule names one. -/
  sync : Option (String × Direction)
  /-- The assignments that the transition must make; none where there is no text. -/
  update : String
  deriving DecidableEq, Repr

/-- The update with the qualifier of the acting process taken out of its text. -/
def ActionRule.unqualifiedUpdate (rule : ActionRule) : String :=
  String.ofList (Text.replaceAll (rule.process.toList ++ ['.']) [] rule.update.toList)

inductive StrategyRule where
  | delay (condition : String)
  | action (rule : ActionRule)
  deriving DecidableEq, Repr

def StrategyRule.condition : StrategyRule → String
  | delay condition => condition
  | action rule => rule.condition

/-- A state and its rules in the order of the text. -/
abbrev StrategyEntry := StrategyState × List StrategyRule

/-- States with their rules. A strategy that was read has each state once, in the order of the
first headers. -/
structure Strategy where
  entries : List StrategyEntry
  deriving DecidableEq, Repr

namespace Strategy

def empty : Strategy := ⟨[]⟩

def states (s : Strategy) : List StrategyState := s.entries.map (·.1)

def size (s : Strategy) : Nat := s.entries.length

def isEmpty (s : Strategy) : Bool := s.entries.isEmpty

/-- The rules of the first entry for a state. -/
def rules? (s : Strategy) (state : StrategyState) : Option (List StrategyRule) :=
  (s.entries.find? fun e => e.1 == state).map (·.2)

/-- The strategy with an entry for `state`, added at the end unless there is one. -/
def declare (s : Strategy) (state : StrategyState) : Strategy :=
  if (s.rules? state).isSome then s else ⟨s.entries ++ [(state, [])]⟩

/-- The strategy with a rule at the end of the first entry for `state`. -/
def append (s : Strategy) (state : StrategyState) (rule : StrategyRule) : Strategy :=
  ⟨appendTo s.entries⟩
where
  appendTo : List StrategyEntry → List StrategyEntry
    | [] => []
    | (found, rules) :: rest =>
      if found = state then (found, rules ++ [rule]) :: rest else (found, rules) :: appendTo rest

theorem declare_states (s : Strategy) (state : StrategyState) :
    (s.declare state).states = if state ∈ s.states then s.states else s.states ++ [state] := by
  have found : (s.rules? state).isSome = true ↔ state ∈ s.states := by
    simp [rules?, states, List.find?_isSome]
  unfold declare
  by_cases h : state ∈ s.states
  · rw [if_pos (found.2 h), if_pos h]
  · rw [if_neg (fun hs => h (found.1 hs)), if_neg h]
    simp [states]

theorem append_states (s : Strategy) (state : StrategyState) (rule : StrategyRule) :
    (s.append state rule).states = s.states := by
  have appended : ∀ entries : List StrategyEntry,
      (append.appendTo state rule entries).map (·.1) = entries.map (·.1) := by
    intro entries
    induction entries with
    | nil => rfl
    | cons entry rest ih =>
      obtain ⟨found, rules⟩ := entry
      simp only [append.appendTo]
      split <;> simp [ih]
  exact appended s.entries

end Strategy

end TimedMutation
