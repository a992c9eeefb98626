/-! Finite maps from names, listed in the order of the names. -/

namespace TimedMutation

/-- Values under names. The names ascend, so each stands once and equal maps are equal lists. -/
structure Bindings (α : Type) where
  entries : List (String × α)
  ascending : entries.Pairwise (fun a b => a.1 < b.1)

namespace Bindings

variable {α β : Type}

/-- Put a value under its name into a list of ascending names, over one that stands there. -/
def put (name : String) (value : α) : List (String × α) → List (String × α)
  | [] => [(name, value)]
  | (n, v) :: rest =>
    if name < n then (name, value) :: (n, v) :: rest
    else if name = n then (name, value) :: rest
    else (n, v) :: put name value rest

theorem mem_put {name : String} {value : α} {entries : List (String × α)} {e : String × α}
    (h : e ∈ put name value entries) : e = (name, value) ∨ e ∈ entries := by
  induction entries with
  | nil => simp [put] at h; exact .inl h
  | cons head rest ih =>
    obtain ⟨n, v⟩ := head
    simp only [put] at h
    split at h
    · simpa using h
    · split at h
      · simp only [List.mem_cons] at h ⊢
        exact h.imp_right .inr
      · simp only [List.mem_cons] at h ⊢
        rcases h with h | h
        · exact .inr (.inl h)
        · exact (ih h).imp_right .inr

theorem ascending_put (name : String) (value : α) {entries : List (String × α)}
    (h : entries.Pairwise (fun a b => a.1 < b.1)) :
    (put name value entries).Pairwise (fun a b => a.1 < b.1) := by
  induction entries with
  | nil => simp [put]
  | cons head rest ih =>
    obtain ⟨n, v⟩ := head
    rw [List.pairwise_cons] at h
    simp only [put]
    split
    · rename_i hlt
      refine List.pairwise_cons.2 ⟨?_, List.pairwise_cons.2 h⟩
      intro e he
      rcases List.mem_cons.1 he with rfl | he
      · exact hlt
      · exact String.lt_trans hlt (h.1 e he)
    · rename_i hnlt
      split
      · rename_i heq
        exact List.pairwise_cons.2 ⟨fun e he => heq ▸ h.1 e he, h.2⟩
      · rename_i hne
        refine List.pairwise_cons.2 ⟨?_, ih h.2⟩
        intro e he
        rcases mem_put he with rfl | he
        · exact Std.lt_of_le_of_ne (String.not_lt.1 hnlt) (Ne.symm hne)
        · exact h.1 e he

def empty : Bindings α := ⟨[], .nil⟩

/-- The map with `value` under `name`. -/
def insert (b : Bindings α) (name : String) (value : α) : Bindings α :=
  ⟨put name value b.entries, ascending_put name value b.ascending⟩

/-- The map of a list of entries, of which the last under a name counts. -/
def ofList (entries : List (String × α)) : Bindings α :=
  entries.foldl (fun b (name, value) => b.insert name value) empty

/-- The value under `name`. -/
def get? (b : Bindings α) (name : String) : Option α := b.entries.lookup name

def has (b : Bindings α) (name : String) : Bool := (b.get? name).isSome

/-- The names in their order. -/
def names (b : Bindings α) : List String := b.entries.map (·.1)

/-- The map with every value replaced. -/
def map (f : α → β) (b : Bindings α) : Bindings β :=
  ⟨b.entries.map fun (name, value) => (name, f value), by
    rw [List.pairwise_map]; exact b.ascending⟩

/-- The entries of both maps, those of `c` over those of `b`. -/
def union (b c : Bindings α) : Bindings α :=
  c.entries.foldl (fun b (name, value) => b.insert name value) b

theorem lookup_put (name : String) (value : α) (entries : List (String × α)) (x : String) :
    (put name value entries).lookup x = if x = name then some value else entries.lookup x := by
  by_cases h : x = name
  · subst h
    induction entries with
    | nil => simp [put]
    | cons head rest ih =>
      obtain ⟨n, v⟩ := head
      simp only [put]
      split
      · simp
      · split
        · simp
        · rename_i hne
          simp [List.lookup_cons, beq_false_of_ne hne, ih]
  · induction entries with
    | nil => simp [put, List.lookup_cons, beq_false_of_ne h, h]
    | cons head rest ih =>
      obtain ⟨n, v⟩ := head
      simp only [put]
      split
      · simp [List.lookup_cons, beq_false_of_ne h]
      · split
        · rename_i heq
          subst heq
          simp [List.lookup_cons, beq_false_of_ne h]
        · simp [List.lookup_cons, ih, h]

@[simp] theorem get?_empty (x : String) : (empty : Bindings α).get? x = none := rfl

@[simp] theorem get?_insert (b : Bindings α) (name : String) (value : α) (x : String) :
    (b.insert name value).get? x = if x = name then some value else b.get? x :=
  lookup_put name value b.entries x

@[simp] theorem names_map (f : α → β) (b : Bindings α) : (b.map f).names = b.names := by
  simp [names, map, Function.comp_def]

end Bindings

end TimedMutation
