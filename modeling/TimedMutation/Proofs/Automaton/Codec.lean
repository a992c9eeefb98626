import TimedMutation.Automaton.Codec
import TimedMutation.Proofs.Automaton.WellFormed
import TimedMutation.Proofs.Document.Record

/-! A component that is written and read again: its locks are lost, and computed again where it is
loaded. -/

namespace TimedMutation

open Document (Fields)

theorem LocationKind.ofDocument?_name (k : LocationKind) : ofDocument? (.text k.name) = some k := by
  cases k <;> rfl

theorem Direction.ofDocument?_name (d : Direction) : ofDocument? (.text d.name) = some d := by
  cases d <;> rfl

/-! ### What is read of a document -/

theorem Location.ofDocument?_toDocument (listed : Bool) (l : Location) :
    ofDocument? listed l.toDocument = some l := by
  rw [ofDocument?, toDocument, Document.fields?_record listed (by simp) (by simp)]
  simp [Fields.required?, Fields.optional?, List.lookup_cons, LocationKind.ofDocument?_name]

/-- The edge without a lock, as it is read. -/
def Edge.unlocked (e : Edge) : Edge := { e with locked := false }

theorem Edge.ofDocument?_toDocument (listed : Bool) (e : Edge) :
    ofDocument? listed e.toDocument = some e.unlocked := by
  rw [ofDocument?, toDocument, Document.fields?_record listed (by simp) (by simp)]
  simp [Fields.required?, Fields.optional?, List.lookup_cons, Direction.ofDocument?_name, unlocked]

/-- The numbers of a local fit into 64 bits with a sign. -/
structure Local.Fits (l : Local) : Prop where
  lower : Text.isWord64 l.lower = true
  upper : Text.isWord64 l.upper = true
  initial : Text.isWord64 l.initial = true

theorem Local.ofDocument?_toDocument (listed : Bool) {l : Local} (h : l.Fits) :
    ofDocument? listed l.toDocument = some l := by
  rw [ofDocument?, toDocument, Document.fields?_record listed (by simp) (by simp)]
  simp [Fields.required?, Fields.optional?, List.lookup_cons, Document.integer?_integer h.lower,
    Document.integer?_integer h.upper, Document.nullOr?_integer h.initial]

theorem Declarations.ofDocument?_toDocument (listed : Bool) {d : Declarations}
    (h : ∀ l ∈ d.locals, l.Fits) : ofDocument? listed d.toDocument = some d := by
  have hlocals : Document.listOf? (Local.ofDocument? listed) (.list (d.locals.map Local.toDocument)) =
      some (d.locals.map id) :=
    Document.listOf?_map fun l hl => Local.ofDocument?_toDocument listed (h l hl)
  rw [ofDocument?, toDocument, Document.fields?_record listed (by simp) (by simp)]
  simp [Fields.optional?, List.lookup_cons, Document.listOf?_texts, hlocals]

namespace Component

/-- The component with no edge locked, as it is read. -/
def unlocked (c : Component) : Component := { c with edges := c.edges.map Edge.unlocked }

theorem ofDocument?_toDocument (listed : Bool) {c : Component}
    (h : ∀ l ∈ c.declarations.locals, l.Fits) :
    ofDocument? listed c.toDocument = some c.unlocked := by
  have hlocations : Document.listOf? (Location.ofDocument? listed)
      (.list (c.locations.map Location.toDocument)) = some (c.locations.map id) :=
    Document.listOf?_map fun l _ => Location.ofDocument?_toDocument listed l
  have hedges : Document.listOf? (Edge.ofDocument? listed)
      (.list (c.edges.map Edge.toDocument)) = some (c.edges.map Edge.unlocked) :=
    Document.listOf?_map fun e _ => Edge.ofDocument?_toDocument listed e
  rw [ofDocument?, toDocument, Document.fields?_record listed (by simp) (by simp)]
  simp [Fields.required?, Fields.optional?, List.lookup_cons, hlocations, hedges, unlocked,
    Declarations.ofDocument?_toDocument listed h]

theorem lossless_toDocument {c : Component} (h : ∀ l ∈ c.declarations.locals, l.Fits) :
    Json.Lossless c.toDocument := by
  have hlocation : ∀ l ∈ c.locations, Json.Lossless l.toDocument := by
    intro l _
    apply Json.lossless_record
    simp [Json.lossless_text]
  have hedge : ∀ e ∈ c.edges, Json.Lossless e.toDocument := by
    intro e _
    apply Json.lossless_record
    simp [Json.lossless_text]
  have hlocal : ∀ l ∈ c.declarations.locals, Json.Lossless l.toDocument := by
    intro l hl
    apply Json.lossless_record
    simp [Json.lossless_text, Json.lossless_integer, (h l hl).lower, (h l hl).upper,
      (h l hl).initial]
  have hdeclarations : Json.Lossless c.declarations.toDocument := by
    apply Json.lossless_record
    simp [Json.lossless_texts, Json.lossless_listOf hlocal]
  apply Json.lossless_record
  simp [Json.lossless_text, hdeclarations, Json.lossless_listOf hlocation, Json.lossless_listOf hedge]

/-! ### Loading -/

/-- No fault depends on a lock. -/
theorem fault?_relocked (c : Component) (lock : Edge → Bool) :
    fault? { c with edges := c.edges.map fun e => { e with locked := lock e } } = c.fault? := by
  simp only [fault?, List.zipIdx_map, List.findSome?_map]
  rfl

theorem checked_unlocked (c : Component) :
    c.unlocked.checked = c.validate.map fun _ => c.refreshLocks := by
  have hlocks : c.unlocked.refreshLocks = c.refreshLocks := by
    simp [unlocked, refreshLocks, Edge.unlocked, isCompletionId]
  have hfault : c.refreshLocks.fault? = c.fault? := fault?_relocked c _
  rw [checked, validate, hlocks, hfault]
  cases c.fault? <;> rfl

/-- Writing a component and loading it again validates it and computes its locks, and changes
nothing else. -/
theorem ofJson_written {c : Component} (h : ∀ l ∈ c.declarations.locals, l.Fits) :
    ofJson (Json.compact c.toDocument) = c.validate.map (fun _ => c.refreshLocks) ∧
      ofJson (Json.pretty c.toDocument) = c.validate.map (fun _ => c.refreshLocks) := by
  have hload : load ((some c.toDocument).bind (ofDocument? true)) =
      c.validate.map fun _ => c.refreshLocks := by
    rw [Option.bind_some, ofDocument?_toDocument true h, load, checked_unlocked]
  have hlossless := lossless_toDocument h
  rw [ofJson, ofJson, Json.read?_compact hlossless, Json.read?_pretty hlossless]
  exact ⟨hload, hload⟩

/-- A lamp that can be dimmed, that starts at three although its range holds zero, and of which both
edges are wrongly locked. -/
def dimmedLamp : Component :=
  { Lamp.component with
    declarations := { Lamp.component.declarations with locals := [⟨"level", -5, 10, 3⟩] }
    edges := Lamp.component.edges.map fun e => { e with locked := true } }

theorem ofJson_written_dimmed_lamp :
    (∀ l ∈ dimmedLamp.declarations.locals, l.Fits) ∧
      ofJson (Json.compact dimmedLamp.toDocument) =
        .ok { dimmedLamp with edges := Lamp.component.edges } := by
  have hfits : ∀ l ∈ dimmedLamp.declarations.locals, l.Fits := by
    intro l hl
    cases List.mem_singleton.mp hl
    exact ⟨by decide, by decide, by decide⟩
  refine ⟨hfits, (ofJson_written hfits).1.trans ?_⟩
  decide

end Component
end TimedMutation
