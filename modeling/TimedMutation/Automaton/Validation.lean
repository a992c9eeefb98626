import TimedMutation.Automaton.Basic

/-! The structural conditions on a component, and the fault that is reported where several are
broken. -/

namespace TimedMutation

/-- Why a component is refused. -/
inductive ModelError where
  /-- The text is no component at all. -/
  | unreadable
  | noLocations
  | duplicateLocation (id : String)
  | noInitialLocation
  | manyInitialLocations
  | unknownLocation (edge : Nat) (id : String)
  | undeclaredSync (edge : Nat) (action : String)
  | badRange (name : String)
  deriving DecidableEq, Repr

def ModelError.message : ModelError → String
  | unreadable => "Failed to parse component"
  | noLocations => "Component has no locations"
  | duplicateLocation id => "Duplicate location id '" ++ id ++ "'"
  | noInitialLocation => "Component has no initial location"
  | manyInitialLocations => "Component has more than one initial location"
  | unknownLocation edge id =>
    "Edge " ++ Text.ofNat edge ++ " references non-existent location '" ++ id ++ "'"
  | undeclaredSync edge action =>
    "Edge " ++ Text.ofNat edge ++ " uses undeclared sync '" ++ action ++ "'"
  | badRange name => "Local '" ++ name ++ "' has an empty range or an initial value outside it"

/-- The first name of a list that stands in it before, or in `seen`. -/
def firstRepeated? (seen : List String) : List String → Option String
  | [] => none
  | name :: names => if name ∈ seen then some name else firstRepeated? (name :: seen) names

theorem firstRepeated?_eq_none {seen names : List String} :
    firstRepeated? seen names = none ↔ names.Nodup ∧ ∀ n ∈ names, n ∉ seen := by
  induction names generalizing seen with
  | nil => simp [firstRepeated?]
  | cons name names ih =>
    simp only [firstRepeated?]
    split
    · simp_all
    · rename_i h
      rw [ih, List.nodup_cons]
      simp only [List.mem_cons, not_or]
      constructor
      · rintro ⟨hn, ha⟩
        refine ⟨⟨fun hm => (ha name hm).1 rfl, hn⟩, ?_⟩
        rintro n (rfl | hm)
        · exact h
        · exact (ha n hm).2
      · rintro ⟨⟨hm, hn⟩, ha⟩
        exact ⟨hn, fun n hn' => ⟨fun e => hm (e ▸ hn'), ha n (.inr hn')⟩⟩

namespace Component

def initialFault? (c : Component) : Option ModelError :=
  match c.locations.countP fun l => l.kind == .initial with
  | 0 => some .noInitialLocation
  | 1 => none
  | _ => some .manyInitialLocations

def hasLocation (c : Component) (id : String) : Bool := c.locations.any fun l => l.id == id

/-- What is wrong with an edge: its source, else its target, else its action. -/
def edgeFault? (c : Component) (e : Edge) (index : Nat) : Option ModelError :=
  if !c.hasLocation e.source then some (.unknownLocation index e.source)
  else if !c.hasLocation e.target then some (.unknownLocation index e.target)
  else if !((c.declarations.labels e.direction).any fun label => label == e.sync) then
    some (.undeclaredSync index e.action)
  else none

def localFault? (l : Local) : Option ModelError :=
  if l.upper < l.lower ∨ l.contains l.initial = false then some (.badRange l.name) else none

/-- The fault that is reported: of the locations first, then of the edges, then of the locals. -/
def fault? (c : Component) : Option ModelError :=
  if c.locations.isEmpty then some .noLocations
  else
    ((firstRepeated? [] (c.locations.map (·.id))).map ModelError.duplicateLocation).or
      (c.initialFault?.or
        ((c.edges.zipIdx.findSome? fun (e, index) => c.edgeFault? e index).or
          (c.declarations.locals.findSome? localFault?)))

def validate (c : Component) : Except ModelError Unit :=
  match c.fault? with
  | some fault => .error fault
  | none => .ok ()

/-- The component with its locks computed, if it passes validation. -/
def checked (c : Component) : Except ModelError Component :=
  match c.refreshLocks.fault? with
  | some fault => .error fault
  | none => .ok c.refreshLocks

end Component

end TimedMutation
