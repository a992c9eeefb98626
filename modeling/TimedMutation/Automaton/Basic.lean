import TimedMutation.Text.Numeral

/-! Timed-automaton components: locations, edges between them, and declared clocks, locals and
actions. -/

namespace TimedMutation

/-- The role of a location. The last two are added when an automaton is completed. -/
inductive LocationKind where
  | normal | initial | inconsistent | universal
  deriving DecidableEq, Repr

namespace LocationKind

def name : LocationKind → String
  | normal => "normal"
  | initial => "initial"
  | inconsistent => "inconsistent"
  | universal => "universal"

def all : List LocationKind := [normal, initial, inconsistent, universal]

def ofName? (s : String) : Option LocationKind := all.find? fun k => k.name == s

theorem ofName?_name (k : LocationKind) : ofName? k.name = some k := by cases k <;> decide

/-- Whether completion added the location; edges at such a location are not mutated. -/
def isCompletion : LocationKind → Bool
  | inconsistent | universal => true
  | normal | initial => false

end LocationKind

structure Location where
  id : String
  /-- The condition under which the location may be held; one without text always holds. -/
  invariant : String := ""
  kind : LocationKind := .normal
  deriving DecidableEq, Repr

/-- Whether an action is received or sent. -/
inductive Direction where
  | input | output
  deriving DecidableEq, Repr

namespace Direction

def name : Direction → String
  | input => "input"
  | output => "output"

def ofName? (s : String) : Option Direction := [input, output].find? fun d => d.name == s

theorem ofName?_name (d : Direction) : ofName? d.name = some d := by cases d <;> decide

/-- The mark after a label. -/
def mark : Direction → Char
  | input => '?'
  | output => '!'

/-- A label and the mark of its direction. -/
def actionText (d : Direction) (label : String) : String := label.push d.mark

/-- The label and direction that `label?` or `label!` writes. -/
def splitLabel? (action : String) : Option (String × Direction) :=
  let cs := action.toList
  match cs.getLast? with
  | some '?' => some (String.ofList cs.dropLast, input)
  | some '!' => some (String.ofList cs.dropLast, output)
  | _ => none

end Direction

structure Edge where
  source : String
  target : String
  direction : Direction
  /-- The label of the action without a mark. -/
  sync : String
  guard : String := ""
  update : String := ""
  /-- Whether the edge touches a location that completion added. -/
  locked : Bool := false
  deriving DecidableEq, Repr

namespace Edge

/-- The action of the edge: `label?` or `label!`. -/
def action (e : Edge) : String := e.direction.actionText e.sync

/-- The edge on one line; a guard or an update without text is left out. -/
def render (e : Edge) : String :=
  e.source ++ " -> " ++ e.target ++ " [" ++ e.action ++
    (if e.guard.isEmpty then "" else ", guard: " ++ e.guard) ++
    (if e.update.isEmpty then "" else ", update: " ++ e.update) ++ "]"

end Edge

/-- A local variable that holds an integer of a closed range. -/
structure Local where
  name : String
  lower : Int
  upper : Int
  initial : Int
  deriving DecidableEq, Repr

namespace Local

/-- A local that starts at its lower bound. -/
def fromLower (name : String) (lower upper : Int) : Local := ⟨name, lower, upper, lower⟩

/-- Where a local starts whose declaration does not say: at zero if its range holds zero, at the
lower bound otherwise. -/
def defaultInitial (lower upper : Int) : Int := if lower ≤ 0 ∧ 0 ≤ upper then 0 else lower

def contains (l : Local) (value : Int) : Bool := l.lower ≤ value && value ≤ l.upper

/-- The number of values in the range, held within 64 bits. -/
def rangeSize (l : Local) : Nat := min (l.upper - l.lower + 1).toNat (Text.countLimit - 1)

/-- The values of the range from the lower bound up. -/
def values (l : Local) : List Int :=
  (List.range (l.upper - l.lower + 1).toNat).map fun (i : Nat) => l.lower + i

theorem mem_values {l : Local} {v : Int} : v ∈ l.values ↔ l.contains v = true := by
  simp only [values, List.mem_map, List.mem_range, contains, Bool.and_eq_true, decide_eq_true_eq]
  constructor
  · rintro ⟨i, hi, rfl⟩
    omega
  · rintro ⟨hl, hu⟩
    exact ⟨(v - l.lower).toNat, by omega, by omega⟩

end Local

structure Declarations where
  clocks : List String := []
  locals : List Local := []
  inputs : List String := []
  outputs : List String := []
  deriving DecidableEq, Repr

/-- The labels that are declared for a direction. -/
def Declarations.labels (d : Declarations) : Direction → List String
  | .input => d.inputs
  | .output => d.outputs

structure Component where
  name : String
  declarations : Declarations := {}
  locations : List Location := []
  edges : List Edge := []
  deriving DecidableEq, Repr

namespace Component

def initialLocation? (c : Component) : Option Location :=
  c.locations.find? fun l => l.kind == .initial

/-- The first location with an id. -/
def location? (c : Component) (id : String) : Option Location :=
  c.locations.find? fun l => l.id == id

/-- The edges that leave a location, in order of declaration. -/
def outgoing (c : Component) (id : String) : List Edge := c.edges.filter fun e => e.source == id

def isClock (c : Component) (name : String) : Bool := c.declarations.clocks.any fun x => x == name

/-- The first local with a name. -/
def local? (c : Component) (name : String) : Option Local :=
  c.declarations.locals.find? fun l => l.name == name

/-- Whether a completion location has an id. -/
def isCompletionId (c : Component) (id : String) : Bool :=
  c.locations.any fun l => l.kind.isCompletion && l.id == id

/-- The component in which exactly the edges at completion locations are locked. -/
def refreshLocks (c : Component) : Component :=
  { c with edges := c.edges.map fun e =>
      { e with locked := c.isCompletionId e.source || c.isCompletionId e.target } }

def addLocation (c : Component) (l : Location) : Component :=
  refreshLocks { c with locations := c.locations ++ [l] }

def addEdge (c : Component) (e : Edge) : Component :=
  refreshLocks { c with edges := c.edges ++ [e] }

theorem numbered_injective {stem : String} {m n : Nat}
    (h : stem ++ Text.ofNat m = stem ++ Text.ofNat n) : m = n := by
  have hlists := congrArg String.toList h
  simp only [String.toList_append] at hlists
  exact Text.ofNat_injective (String.toList_inj.mp (List.append_cancel_left hlists))

/-- The locations whose ids are not the stem and a number below `n`. -/
def untried (c : Component) (stem : String) (n : Nat) : List Location :=
  c.locations.filter fun l => (List.range n).all fun m => l.id != stem ++ Text.ofNat m

theorem length_untried_succ_lt {c : Component} {stem : String} {n : Nat}
    (h : (c.location? (stem ++ Text.ofNat n)).isSome) :
    (c.untried stem (n + 1)).length < (c.untried stem n).length := by
  obtain ⟨l, hl⟩ := Option.isSome_iff_exists.mp h
  have hmem := List.mem_of_find?_eq_some hl
  have hid : l.id = stem ++ Text.ofNat n := by simpa using List.find?_some hl
  have hfilter : c.untried stem (n + 1) =
      (c.untried stem n).filter fun l => l.id != stem ++ Text.ofNat n := by
    simp [untried, List.range_succ, List.filter_filter, Bool.and_comm]
  rw [hfilter, List.length_filter_lt_length_iff_exists]
  refine ⟨l, ?_, by simp [hid]⟩
  simp only [untried, List.mem_filter, List.all_eq_true, List.mem_range, bne_iff_ne, ne_eq]
  refine ⟨hmem, fun m hm hnumber => ?_⟩
  have hmn := numbered_injective (hid.symm.trans hnumber)
  omega

/-- The least number from `n` on that makes the stem an id that no location has. Nothing else bounds
the search: a number that a location uses leaves fewer locations untried, since different numbers
make different ids. -/
def freeNumber (c : Component) (stem : String) (n : Nat) : Nat :=
  if _used : (c.location? (stem ++ Text.ofNat n)).isSome then c.freeNumber stem (n + 1) else n
termination_by (c.untried stem n).length
decreasing_by exact length_untried_succ_lt _used

/-- An id that no location has: the stem itself, or the stem and the least positive number that
makes it one. -/
def freshId (c : Component) (stem : String) : String :=
  if (c.location? stem).isNone then stem else stem ++ Text.ofNat (c.freeNumber stem 1)

@[simp] theorem refreshLocks_locations (c : Component) :
    c.refreshLocks.locations = c.locations := rfl

@[simp] theorem refreshLocks_declarations (c : Component) :
    c.refreshLocks.declarations = c.declarations := rfl

@[simp] theorem refreshLocks_refreshLocks (c : Component) :
    c.refreshLocks.refreshLocks = c.refreshLocks := by
  simp [refreshLocks, isCompletionId]

end Component

end TimedMutation
