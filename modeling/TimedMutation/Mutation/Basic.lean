import TimedMutation.Guard.Name
import TimedMutation.Mutation.Catalogue
import TimedMutation.Mutation.Edit
import TimedMutation.Strategy.Basic
import TimedMutation.Update

/-! Mutations of a component and the test cases that they make. -/

namespace TimedMutation

/-- One change of a component, found by the operator of a class. -/
structure Mutation where
  operator : MutationClass
  /-- What tells the change from others of its class. -/
  discriminator : String
  description : String
  edit : Edit

/-- The component under test and a mutant of it, with the strategy that is to tell them apart where
there is one. -/
structure TestCase where
  id : String
  operator : MutationClass
  description : String
  subject : Component
  mutant : Component
  strategy : Option Strategy := none

namespace Mutation

def id (m : Mutation) : String := m.operator.code ++ "_" ++ m.discriminator

def testCase (m : Mutation) (c : Component) : TestCase where
  id := m.id
  operator := m.operator
  description := m.description
  subject := c
  mutant := m.edit.apply c

end Mutation

/-- Why an operator finds no mutations of a component. -/
inductive MutationError where
  | expression (e : ExprError)
  /-- A constant of a guard has no neighbour `step` away within 64 bits. -/
  | constant (value : Int) (edge : Nat) (step : Int)

/-- The value of a text inside an operator. -/
def inMutation {α : Type} : Except ExprError α → Except MutationError α
  | .ok a => .ok a
  | .error e => .error (.expression e)

@[simp] theorem inMutation_eq_ok {α : Type} {r : Except ExprError α} {a : α} :
    inMutation r = .ok a ↔ r = .ok a := by
  cases r <;> simp [inMutation]

namespace Component

/-- The edges that may be mutated, with their places. -/
def unlockedEdges (c : Component) : List (Edge × Nat) :=
  c.edges.zipIdx.filter fun (e, _) => !e.locked

/-- The locations that completion did not add. -/
def ordinaryLocations (c : Component) : List Location :=
  c.locations.filter fun l => !l.kind.isCompletion

/-- Whether a part of a guard is about clocks: it mentions a declared one. -/
def isClockPart (c : Component) (part : String) : Bool :=
  c.declarations.clocks.any fun clock => mentions part clock

/-- Everything that `find` finds at the unlocked edges, in their order. -/
def atUnlockedEdges {α : Type} (c : Component) (find : Edge → Nat → Except MutationError (List α)) :
    Except MutationError (List α) := do
  return (← c.unlockedEdges.mapM fun (e, index) => find e index).flatten

end Component

/-- An edge as descriptions name it: its place and its text. -/
def Edge.cited (e : Edge) (index : Nat) : String := Text.ofNat index ++ " (" ++ e.render ++ ")"

end TimedMutation
