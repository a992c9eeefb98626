import TimedMutation.Engine.Error
import TimedMutation.Mutation.Basic
import TimedMutation.Simulation.Error
import TimedMutation.Strategy.Line

/-! Everything that can go wrong with a test case, an operator or a configuration. -/

namespace TimedMutation

inductive Failure where
  | expression (e : ExprError)
  | strategy (e : StrategyError)
  | simulation (process : String) (fault : StepFault)
  | engine (caseId : String) (e : EngineError)
  | noStrategy (caseId : String)
  /-- A constant of a guard has no neighbour `step` away within 64 bits. -/
  | constant (value : Int) (edge : Nat) (step : Int)
  | unknownOperator (code : String)
  | file (e : FileError)
  /-- The text is no configuration. -/
  | unreadable

namespace Failure

/-- What is wrong, where the model or the request does not keep a condition. -/
def broken (what : String) : String := "Invariant violated: " ++ what

def message : Failure → String
  | expression e => e.message
  | strategy e => e.message
  | simulation process fault =>
    "Simulation of '" ++ process ++ "' aborted: " ++ (SimulationError.step process fault).message
  | engine caseId e => "Strategy engine failed for '" ++ caseId ++ "': " ++ e.message
  | noStrategy caseId => broken ("test case '" ++ caseId ++ "' has no strategy")
  | constant value edge step =>
    broken ("guard constant " ++ Text.ofInt value ++ " of edge " ++ Text.ofNat edge ++
      " cannot be shifted by " ++ Text.ofInt step)
  | unknownOperator code => broken ("unknown mutation operator '" ++ code ++ "'")
  | file e => "I/O error: " ++ e.message
  | unreadable => "Malformed configuration"

def ofSimulation : SimulationError → Failure
  | .step process fault => simulation process fault
  | .expression e => expression e

def ofMutation : MutationError → Failure
  | .expression e => expression e
  | .constant value edge step => constant value edge step

end Failure

end TimedMutation
