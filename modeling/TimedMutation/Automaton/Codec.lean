import TimedMutation.Automaton.Validation
import TimedMutation.Document.Json
import TimedMutation.Document.Yaml.Reader
import TimedMutation.Document.Yaml.Writer

/-!
Components as documents. Locks are read but never written. `listed` tells whether a list of values
may stand for a record.
-/

namespace TimedMutation

open Document (Fields)

def LocationKind.ofDocument? (d : Document) : Option LocationKind := do ofName? (← d.choice?)

def Direction.ofDocument? (d : Document) : Option Direction := do ofName? (← d.choice?)

def Location.ofDocument? (listed : Bool) (d : Document) : Option Location := do
  let fields ← d.fields? listed ["id", "invariant", "kind"]
  return {
    id := ← fields.required? "id" Document.text?
    invariant := ← fields.optional? "invariant" Document.text? ""
    kind := ← fields.optional? "kind" LocationKind.ofDocument? .normal }

def Location.toDocument (l : Location) : Document :=
  .record [("id", .text l.id), ("invariant", .text l.invariant), ("kind", .text l.kind.name)]

def Edge.ofDocument? (listed : Bool) (d : Document) : Option Edge := do
  let fields ← d.fields? listed
    ["source", "target", "direction", "sync", "guard", "update", "locked"]
  return {
    source := ← fields.required? "source" Document.text?
    target := ← fields.required? "target" Document.text?
    direction := ← fields.required? "direction" Direction.ofDocument?
    sync := ← fields.required? "sync" Document.text?
    guard := ← fields.optional? "guard" Document.text? ""
    update := ← fields.optional? "update" Document.text? ""
    locked := ← fields.optional? "locked" Document.bool? false }

def Edge.toDocument (e : Edge) : Document :=
  .record [("source", .text e.source), ("target", .text e.target),
    ("direction", .text e.direction.name), ("sync", .text e.sync), ("guard", .text e.guard),
    ("update", .text e.update)]

/-- An initial value that is left out or null is the default one. -/
def Local.ofDocument? (listed : Bool) (d : Document) : Option Local := do
  let fields ← d.fields? listed ["name", "lower", "upper", "initial"]
  let name ← fields.required? "name" Document.text?
  let lower ← fields.required? "lower" Document.integer?
  let upper ← fields.required? "upper" Document.integer?
  let initial ← fields.optional? "initial" (Document.nullOr? Document.integer?) none
  return ⟨name, lower, upper, initial.getD (defaultInitial lower upper)⟩

def Local.toDocument (l : Local) : Document :=
  .record [("name", .text l.name), ("lower", .integer l.lower), ("upper", .integer l.upper),
    ("initial", .integer l.initial)]

def Declarations.ofDocument? (listed : Bool) (d : Document) : Option Declarations := do
  let fields ← d.fields? listed ["clocks", "locals", "inputs", "outputs"]
  let names := Document.listOf? Document.text?
  return {
    clocks := ← fields.optional? "clocks" names []
    locals := ← fields.optional? "locals" (Document.listOf? (Local.ofDocument? listed)) []
    inputs := ← fields.optional? "inputs" names []
    outputs := ← fields.optional? "outputs" names [] }

def Declarations.toDocument (d : Declarations) : Document :=
  .record [("clocks", .texts d.clocks), ("locals", .list (d.locals.map Local.toDocument)),
    ("inputs", .texts d.inputs), ("outputs", .texts d.outputs)]

namespace Component

/-- The component that a document describes, neither validated nor with its locks computed. -/
def ofDocument? (listed : Bool) (d : Document) : Option Component := do
  let fields ← d.fields? listed ["name", "declarations", "locations", "edges"]
  return {
    name := ← fields.required? "name" Document.text?
    declarations := ← fields.optional? "declarations" (Declarations.ofDocument? listed) {}
    locations := ← fields.required? "locations" (Document.listOf? (Location.ofDocument? listed))
    edges := ← fields.optional? "edges" (Document.listOf? (Edge.ofDocument? listed)) [] }

def toDocument (c : Component) : Document :=
  .record [("name", .text c.name), ("declarations", c.declarations.toDocument),
    ("locations", .list (c.locations.map Location.toDocument)),
    ("edges", .list (c.edges.map Edge.toDocument))]

/-- A component that was read, with its locks computed, if it passes validation. -/
def load (found : Option Component) : Except ModelError Component :=
  match found with
  | none => .error .unreadable
  | some c => c.checked

/-- In JSON a record may also be a list of its values. -/
def ofJson (text : String) : Except ModelError Component :=
  load ((Json.read? text).bind (ofDocument? true))

/-- In YAML every record is a map. -/
def ofYaml (text : String) : Except ModelError Component :=
  load ((Yaml.read? text).bind (ofDocument? false))

def toYaml (c : Component) : String := Yaml.write c.toDocument

end Component

end TimedMutation
