import TimedMutation.Mutation.Basic

/-! Operators that put another declared name into an edge: a location or an action. -/

namespace TimedMutation

namespace Component

/-- Every unlocked edge starts at each other location that completion did not add. -/
def sourceChanges (c : Component) : List Mutation :=
  c.unlockedEdges.flatMap fun (e, i) =>
    (c.ordinaryLocations.filter fun l => l.id != e.source).map fun l =>
      { operator := .changeSource
        discriminator := Text.ofNat i ++ "_" ++ l.id
        description := "Change source of edge " ++ e.cited i ++ " from '" ++ e.source ++ "' to '" ++
          l.id ++ "'"
        edit := .source i l.id }

/-- Every unlocked edge leads to each other location. -/
def targetChanges (c : Component) : List Mutation :=
  c.unlockedEdges.flatMap fun (e, i) =>
    (c.locations.filter fun l => l.id != e.target).map fun l =>
      { operator := .changeTarget
        discriminator := Text.ofNat i ++ "_" ++ l.id
        description := "Change target of edge " ++ e.cited i ++ " from '" ++ e.target ++ "' to '" ++
          l.id ++ "'"
        edit := .target i l.id }

/-- The class that gives edges actions of a direction. -/
def actionClass : Direction → MutationClass
  | .input => .changeActionInputs
  | .output => .changeActionOutputs

/-- Every unlocked edge has each other declared action of a direction. -/
def actionChanges (c : Component) (direction : Direction) : List Mutation :=
  c.unlockedEdges.flatMap fun (e, i) =>
    let others := (c.declarations.labels direction).filter fun label =>
      !(e.direction == direction && e.sync == label)
    others.map fun label =>
      { operator := actionClass direction
        discriminator := Text.ofNat i ++ "_" ++ label
        description := "Change action of edge " ++ e.cited i ++ " to '" ++
          direction.actionText label ++ "'"
        edit := .action i direction label }

/-- The id of the location that a sink mutant adds. -/
def sinkId (c : Component) : String := c.freshId "Sink"

/-- Every unlocked edge leads to a new location that ignores all inputs. -/
def sinkRedirections (c : Component) : List Mutation :=
  c.unlockedEdges.map fun (e, i) =>
    { operator := .sinkLocation
      discriminator := Text.ofNat i ++ "_" ++ c.sinkId
      description := "Redirect edge " ++ e.cited i ++ " to sink location '" ++ c.sinkId ++ "'"
      edit := .sink i c.sinkId }

end Component

end TimedMutation
