import TimedMutation.Automaton.Basic

/-! The single change that turns a component into a mutant. -/

namespace TimedMutation

/-- A change of one edge or of one location, named by its place in the component. -/
inductive Edit where
  | source (edge : Nat) (location : String)
  | target (edge : Nat) (location : String)
  | guard (edge : Nat) (guard : String)
  | update (edge : Nat) (update : String)
  | action (edge : Nat) (direction : Direction) (label : String)
  | invariant (location : Nat) (invariant : String)
  /-- The edge leads to a new location `sink`, which every input leaves where it is. -/
  | sink (edge : Nat) (sink : String)
  deriving DecidableEq, Repr

/-- The component with one edge changed and its locks computed again. -/
def Component.withEdge (c : Component) (index : Nat) (change : Edge → Edge) : Component :=
  Component.refreshLocks { c with edges := c.edges.modify index change }

/-- An edge that takes an input at a location and stays there. -/
def Edge.ignoring (location label : String) : Edge :=
  { source := location, target := location, direction := .input, sync := label }

namespace Edit

/-- The component after the change. Locks do not depend on an invariant and are kept by a change of
one. -/
def apply (c : Component) : Edit → Component
  | source i id => c.withEdge i fun e => { e with source := id }
  | target i id => c.withEdge i fun e => { e with target := id }
  | guard i text => c.withEdge i fun e => { e with guard := text }
  | update i text => c.withEdge i fun e => { e with update := text }
  | action i direction label => c.withEdge i fun e => { e with direction, sync := label }
  | invariant i text =>
    { c with locations := c.locations.modify i fun l => { l with invariant := text } }
  | sink i id =>
    Component.refreshLocks { c with
      locations := c.locations ++ [{ id }]
      edges := c.edges.modify i (fun e => { e with target := id }) ++
        c.declarations.inputs.map (Edge.ignoring id) }

@[simp] theorem apply_name (c : Component) (e : Edit) : (e.apply c).name = c.name := by
  cases e <;> rfl

@[simp] theorem apply_declarations (c : Component) (e : Edit) :
    (e.apply c).declarations = c.declarations := by
  cases e <;> rfl

end Edit

end TimedMutation
