import TimedMutation.Guard.Conjunction
import TimedMutation.Guard.Literal
import TimedMutation.Guard.Relation
import TimedMutation.Mutation.Basic

/-! Operators that change one place in the text of a guard, an invariant or an update. -/

namespace TimedMutation

namespace Component

/-- A mutation of an edge's guard. -/
def guardChange (operator : MutationClass) (e : Edge) (i : Nat) (place mutated : String) :
    Mutation where
  operator := operator
  discriminator := Text.ofNat i ++ "_" ++ place
  description := "Change guard of edge " ++ e.cited i ++ " from '" ++ e.guard ++ "' to '" ++
    mutated ++ "'"
  edit := .guard i mutated

/-- The relation of one part of a guard with each other comparison of `candidates`. -/
def partChanges (operator : MutationClass) (candidates : List Comparison) (e : Edge) (i : Nat)
    (guard : Conjunction) (part : String) (place : Nat) :
    Except MutationError (List Mutation) := do
  let relation ← inMutation (Relation.ofText part)
  return (candidates.filter fun op => op != relation.op).map fun op =>
    let mutated := Conjunction.mk (guard.parts.set place (relation.withOp op).render)
    guardChange operator e i (Text.ofNat place ++ "_" ++ op.name) mutated.render

/-- Every relation of an unlocked edge's guard that is about clocks, or every one that is not, with
each other comparison of `candidates`. -/
def comparisonChanges (c : Component) (operator : MutationClass) (aboutClocks : Bool)
    (candidates : List Comparison) : Except MutationError (List Mutation) :=
  c.atUnlockedEdges fun e i => do
    let guard ← inMutation (Conjunction.ofText e.guard)
    let parts := guard.parts.zipIdx.filter fun (part, _) => c.isClockPart part == aboutClocks
    return (← parts.mapM fun (part, place) =>
      partChanges operator candidates e i guard part place).flatten

/-- A step by which a constant is shifted, and its name. -/
def shifts : List (Int × String) := [(1, "inc"), (-1, "dec")]

/-- Every whole number in an unlocked edge's guard, one greater and one less. -/
def constantChanges (c : Component) : Except MutationError (List Mutation) :=
  c.atUnlockedEdges fun e i => do
    let changes ← (integerLiterals e.guard).zipIdx.mapM fun (literal, place) =>
      shifts.mapM fun (step, name) =>
        let shifted := literal.value + step
        if Text.isWord64 shifted then
          .ok (guardChange .changeGuardConstant e i (Text.ofNat place ++ "_" ++ name)
            (literal.replacedBy (Text.ofInt shifted)))
        else .error (.constant literal.value i step)
    return changes.flatten

/-- The update of an edge without its reset of a clock, or with one if it has none. -/
def resetChange (e : Edge) (i : Nat) (u : Update) (clock : String) : Except MutationError Mutation :=
  let toggled (description : String) (mutated : Update) : Mutation :=
    { operator := .invertReset
      discriminator := Text.ofNat i ++ "_" ++ clock
      description := description
      edit := .update i mutated.render }
  match u.assignments.findIdx? fun a => a.target == clock && a.isReset with
  | some place =>
    .ok (toggled ("Remove reset of clock '" ++ clock ++ "' from edge " ++ e.cited i) (u.erase place))
  | none => do
    let mutated ← inMutation (u.assign clock "0")
    return toggled ("Add reset of clock '" ++ clock ++ "' to edge " ++ e.cited i) mutated

/-- Every unlocked edge with its reset of each declared clock taken away or added. -/
def resetChanges (c : Component) : Except MutationError (List Mutation) :=
  c.atUnlockedEdges fun e i => do
    let u ← inMutation (Update.ofText e.update)
    c.declarations.clocks.mapM fun clock => resetChange e i u clock

/-- The text of the value that an update gives to a name first. -/
def assigned? (u : Update) (name : String) : Option String :=
  (u.assignments.find? fun a => a.target == name).map Assignment.value

/-- The update of an edge with a value of its range assigned to a local. -/
def valueChange (e : Edge) (i : Nat) (u : Update) (l : Local) (value : String) :
    Except MutationError Mutation := do
  let mutated := (← inMutation (u.assign l.name value)).render
  return {
    operator := .changeVarUpdate
    discriminator := Text.ofNat i ++ "_" ++ l.name ++ "_" ++ value
    description := "Change update of edge " ++ e.cited i ++ " from '" ++ e.update ++ "' to '" ++
      mutated ++ "'"
    edit := .update i mutated }

/-- Every unlocked edge with each value of each local's range assigned to it, except the value that
is assigned already. -/
def valueChanges (c : Component) : Except MutationError (List Mutation) :=
  c.atUnlockedEdges fun e i => do
    let u ← inMutation (Update.ofText e.update)
    let changes ← c.declarations.locals.mapM fun l =>
      let others := (l.values.map Text.ofInt).filter fun value => assigned? u l.name != some value
      others.mapM fun value => valueChange e i u l value
    return changes.flatten

/-- The relation of one part of an invariant with its right side increased by one. -/
def boundChange (l : Location) (i : Nat) (invariant : Conjunction) (part : String) (place : Nat) :
    Except MutationError Mutation := do
  let relation ← inMutation (Relation.ofText part)
  let loosened := relation.withRight (relation.right ++ " + 1")
  let mutated := (Conjunction.mk (invariant.parts.set place loosened.render)).render
  return {
    operator := .changeInvariant
    discriminator := Text.ofNat i ++ "_" ++ Text.ofNat place
    description := "Change invariant of location '" ++ l.id ++ "' from '" ++ l.invariant ++
      "' to '" ++ mutated ++ "'"
    edit := .invariant i mutated }

/-- Every relation of an invariant, of a location that completion did not add, with its right side
increased by one. -/
def boundChanges (c : Component) : Except MutationError (List Mutation) := do
  let ordinary := c.locations.zipIdx.filter fun (l, _) => !l.kind.isCompletion
  let changes ← ordinary.mapM fun (l, i) => do
    let invariant ← inMutation (Conjunction.ofText l.invariant)
    invariant.parts.zipIdx.mapM fun (part, place) => boundChange l i invariant part place
  return changes.flatten

end Component

end TimedMutation
