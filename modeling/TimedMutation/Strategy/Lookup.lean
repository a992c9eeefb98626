import TimedMutation.Simulation.Basic
import TimedMutation.Strategy.Basic

/-! The rule of a strategy that applies to two running processes. -/

namespace TimedMutation

namespace Strategy

/-- The entry for the locations and locals of two processes. -/
def entry? (strategy : Strategy) (first second : Simulation) (tieBreak : TieBreak) :
    Option StrategyEntry :=
  let observed := first.localEqualities ++ second.localEqualities
  tieBreak.pick (strategy.entries.filter fun (state, _) =>
    state.matches first.qualifiedLocation second.qualifiedLocation observed)

/-- The rules whose conditions hold. -/
def applicable (v : Valuation) : List StrategyRule → Except ExprError (List StrategyRule)
  | [] => .ok []
  | rule :: rules => do
    let applies ← holds rule.condition v
    let others ← applicable v rules
    return if applies then rule :: others else others

/-- The rule that applies now. There is none if no entry matches or no condition holds. -/
def rule? (strategy : Strategy) (first second : Simulation) (tieBreak : TieBreak) :
    Except ExprError (Option StrategyRule) :=
  match strategy.entry? first second tieBreak with
  | none => .ok none
  | some (_, rules) =>
    (applicable (first.qualifiedValuation.union second.qualifiedValuation) rules).map tieBreak.pick

end Strategy

end TimedMutation
