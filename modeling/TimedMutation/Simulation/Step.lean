import TimedMutation.Simulation.Basic
import TimedMutation.Strategy.Basic
import TimedMutation.Update

/-! Steps of a simulation: letting time pass and taking an edge. A step that is rejected has no
next state. -/

namespace TimedMutation

/-- An edge of a component and its place among the edges. -/
abbrev NumberedEdge := Edge × Nat

namespace Simulation

def fault {α : Type} (s : Simulation) (why : StepFault) : Except SimulationError α :=
  .error (.step s.process why)

/-- The simulation after a step into `next`. -/
def commit (s : Simulation) (next : Snapshot) (entry : TraceEntry) : Simulation :=
  { s with now := next, history := entry :: s.history }

/-- The step into `next` if the invariant of its location holds there. -/
def enter (s : Simulation) (next : Snapshot) (invariant : String) (entry : TraceEntry) :
    Except SimulationError Simulation := do
  if ← inSimulation (holds invariant next.valuation) then return s.commit next entry
  else s.fault (.invariant next.location invariant)

/-- The invariant of the location that is held. -/
def currentInvariant (s : Simulation) : String :=
  ((s.component.location? s.location).map Location.invariant).getD ""

/-- Every clock advances by `amount`. -/
def delay (s : Simulation) (amount : Float) : Except SimulationError Simulation :=
  if !amount.isFinite || decide (amount < 0.0) then s.fault (.model (.invalidDelay amount))
  else
    s.enter { s.now with clocks := s.now.clocks.map (· + amount) } s.currentInvariant
      (.delay s.location amount)

/-- The edges among `edges` that are wanted and whose guards hold. A guard is evaluated only on an
edge that is wanted. -/
def enabledAmong (v : Valuation) (wanted : Edge → Except ExprError Bool) :
    List NumberedEdge → Except ExprError (List NumberedEdge)
  | [] => .ok []
  | (e, index) :: edges => do
    let enabled ← if ← wanted e then TimedMutation.holds e.guard v else pure false
    let others ← enabledAmong v wanted edges
    return if enabled then (e, index) :: others else others

/-- The edges that leave the location that is held. -/
def leaving (s : Simulation) : List NumberedEdge :=
  s.component.edges.zipIdx.filter fun (e, _) => e.source == s.location

/-- The edge that wins among the wanted edges that leave the location and are enabled. -/
def select (s : Simulation) (wanted : Edge → Except ExprError Bool) :
    Except SimulationError (Option NumberedEdge) :=
  inSimulation ((enabledAmong s.valuation wanted s.leaving).map s.tieBreak.pick)

/-- The edge that `fire` takes. -/
def enabledEdge? (s : Simulation) (direction : Direction) (label : String) :
    Except SimulationError (Option NumberedEdge) :=
  s.select fun e => .ok (e.direction == direction && e.sync == label)

/-- Whether an edge has the destination and the action of a rule. -/
def fits (rule : ActionRule) (e : Edge) : Bool :=
  e.target == rule.destination &&
    match rule.sync with
    | some (label, direction) => e.sync == label && e.direction == direction
    | none => true

/-- Whether every assignment of `required` stands in `u`, white space in values aside. -/
def makes (u required : Update) : Bool :=
  required.assignments.all fun wanted =>
    u.assignments.any fun a =>
      a.target == wanted.target &&
        Text.squeeze a.value.toList == Text.squeeze wanted.value.toList

/-- The edge that `fireRule` takes. -/
def peekRule? (s : Simulation) (rule : ActionRule) :
    Except SimulationError (Option NumberedEdge) := do
  let required ← inSimulation (Update.ofText rule.unqualifiedUpdate)
  s.select fun e =>
    if fits rule e then (Update.ofText e.update).map fun u => makes u required else .ok false

/-- Put the value of an assignment into the clocks or the locals. A local takes the integer part. -/
def assign (s : Simulation) (clocks : Bindings Float) (locals : Bindings Int) (target : String)
    (value : Float) : Except SimulationError (Bindings Float × Bindings Int) :=
  if s.component.isClock target then .ok (clocks.insert target value, locals)
  else
    match s.component.local? target with
    | some declared =>
      let n := Decimal.toWord64 value
      if declared.contains n then .ok (clocks, locals.insert target n)
      else s.fault (.bounds target n)
    | none => s.fault (.model (.undeclaredTarget target))

def assignAll (s : Simulation) (clocks : Bindings Float) (locals : Bindings Int) :
    List (String × Float) → Except SimulationError (Bindings Float × Bindings Int)
  | [] => .ok (clocks, locals)
  | (target, value) :: rest => do
    let (clocks, locals) ← s.assign clocks locals target value
    s.assignAll clocks locals rest

/-- Take an edge: every right-hand side has its value from before, and the invariant of the target
must hold after the assignments. -/
def take (s : Simulation) (e : Edge) : Except SimulationError Simulation := do
  let values ← inSimulation do (← Update.ofText e.update).evaluate s.valuation
  let (clocks, locals) ← s.assignAll s.now.clocks s.now.locals values
  match s.component.location? e.target with
  | none => s.fault (.model (.unknownLocation e.target))
  | some target =>
    s.enter ⟨e.target, clocks, locals⟩ target.invariant (.action e.source e.target e.action)

/-- Take the edge that was selected for an action. -/
def takeSelected (s : Simulation) (action : String) (selected : Option NumberedEdge) :
    Except SimulationError (NumberedEdge × Simulation) :=
  match selected with
  | none => s.fault (.noEdge s.location action)
  | some edge => (s.take edge.1).map fun next => (edge, next)

/-- Take an enabled edge with an action. -/
def fire (s : Simulation) (direction : Direction) (label : String) :
    Except SimulationError (NumberedEdge × Simulation) := do
  s.takeSelected (direction.actionText label) (← s.enabledEdge? direction label)

/-- Take an enabled edge that makes the transition of a rule. -/
def fireRule (s : Simulation) (rule : ActionRule) :
    Except SimulationError (NumberedEdge × Simulation) := do
  s.takeSelected ("transition to '" ++ rule.destination ++ "'") (← s.peekRule? rule)

end Simulation

end TimedMutation
