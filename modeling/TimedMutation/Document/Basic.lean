import TimedMutation.Document.Scalar

/-! Documents: trees of single values, lists and maps, and the records that are read from them. -/

namespace TimedMutation

inductive Document where
  | scalar (s : Scalar)
  | list (items : List Document)
  | map (entries : List (Scalar × Document))

namespace Document

def text (s : String) : Document := scalar (.text s)

def integer (n : Int) : Document := scalar (.integer n)

def count (n : Nat) : Document := scalar (.integer n)

def real (x : Float) : Document := scalar (.real x)

def bool (b : Bool) : Document := scalar (.bool b)

def null : Document := scalar .null

/-- A map from names. -/
def record (fields : List (String × Document)) : Document :=
  map (fields.map fun (name, value) => (.text name, value))

def texts (names : List String) : Document := list (names.map text)

def text? : Document → Option String
  | scalar s => s.text?
  | _ => none

def bool? : Document → Option Bool
  | scalar s => s.bool?
  | _ => none

def integer? : Document → Option Int
  | scalar s => s.integer?
  | _ => none

def count? : Document → Option Nat
  | scalar s => s.count?
  | _ => none

def real? : Document → Option Float
  | scalar s => s.real?
  | _ => none

/-- A value that may be null. -/
def nullOr? {α : Type} (value? : Document → Option α) : Document → Option (Option α)
  | scalar s => do
    if ← s.null? then return none
    return some (← value? (scalar s))
  | d => (value? d).map some

/-- A list; where nothing was written there is one without items. -/
def list? : Document → Option (List Document)
  | list items => some items
  | scalar s => if s.isMissing then some [] else none
  | _ => none

/-- A list of which every item can be read. -/
def listOf? {α : Type} (item? : Document → Option α) (d : Document) : Option (List α) := do
  (← d.list?).mapM item?

/-- One of several names: a string, a tag, or a map from that name alone to null. -/
def choice? : Document → Option String
  | scalar s => s.choice?
  | map [(name, scalar .null)] => name.text?
  | _ => none

/-- The fields of a record that were given, by name. -/
abbrev Fields := List (String × Document)

/-- The known fields among the entries of a map. Every name must be readable and no known name may
stand twice; the values of unknown names are not looked at. -/
def knownFields? (known : List String) (found : Fields) : List (Scalar × Document) → Option Fields
  | [] => some found
  | (key, value) :: entries => do
    let name ← key.text?
    if name ∈ known then
      if (found.lookup name).isSome then none
      else knownFields? known (found ++ [(name, value)]) entries
    else knownFields? known found entries

/-- The fields of a record: a map from their names or, where a record may be `listed`, a list of
their values in order, of which the last ones may be missing. Where nothing was written there is one
without fields. -/
def fields? (listed : Bool) (known : List String) : Document → Option Fields
  | map entries => knownFields? known [] entries
  | list items =>
    if listed && items.length ≤ known.length then some (known.zip items) else none
  | scalar s => if s.isMissing then some [] else none

/-- A field that must be given. -/
def Fields.required? {α : Type} (fields : Fields) (name : String) (read? : Document → Option α) :
    Option α := do read? (← fields.lookup name)

/-- A field with a default. -/
def Fields.optional? {α : Type} (fields : Fields) (name : String) (read? : Document → Option α)
    (default : α) : Option α :=
  match fields.lookup name with
  | none => some default
  | some d => read? d

end Document

end TimedMutation
