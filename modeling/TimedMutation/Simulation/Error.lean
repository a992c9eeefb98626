import TimedMutation.Expr.Error

/-! Why a simulation rejects a step. -/

namespace TimedMutation

/-- What makes a model unfit to run. -/
inductive ModelFlaw where
  | noInitialLocation
  | initialInvariant (condition location : String)
  | invalidDelay (amount : Float)
  | undeclaredTarget (name : String)
  | unknownLocation (id : String)

def ModelFlaw.message : ModelFlaw → String
  | noInitialLocation => "no initial location"
  | initialInvariant condition location =>
    "initial invariant '" ++ condition ++ "' of '" ++ location ++ "' violated"
  | invalidDelay amount => "invalid delay " ++ Decimal.plain amount
  | undeclaredTarget name => "assignment to undeclared variable '" ++ name ++ "'"
  | unknownLocation id => "edge targets unknown location '" ++ id ++ "'"

/-- Why a process does not take a step. -/
inductive StepFault where
  /-- The invariant `condition` of `location` would not hold after the step. -/
  | invariant (location condition : String)
  | noEdge (location action : String)
  | bounds (name : String) (value : Int)
  | model (flaw : ModelFlaw)

def StepFault.message : StepFault → String
  | invariant location condition =>
    "invariant '" ++ condition ++ "' of location '" ++ location ++ "' violated"
  | noEdge location action => "no enabled edge for " ++ action ++ " in location '" ++ location ++ "'"
  | bounds name value => "value " ++ Text.ofInt value ++ " out of bounds for '" ++ name ++ "'"
  | model flaw => "malformed model: " ++ flaw.message

inductive SimulationError where
  | step (process : String) (fault : StepFault)
  | expression (e : ExprError)

namespace SimulationError

/-- Whether the model is broken, rather than the behaviour different from what was asked. -/
def isFatal : SimulationError → Bool
  | step _ (.model _) | expression _ => true
  | step _ _ => false

def message : SimulationError → String
  | step process fault => process ++ ": " ++ fault.message
  | expression e => e.message

end SimulationError

/-- A value of an evaluation inside a simulation. -/
def inSimulation {α : Type} : Except ExprError α → Except SimulationError α
  | .ok a => .ok a
  | .error e => .error (.expression e)

@[simp] theorem inSimulation_eq_ok {α : Type} {r : Except ExprError α} {a : α} :
    inSimulation r = .ok a ↔ r = .ok a := by
  cases r <;> simp [inSimulation]

end TimedMutation
