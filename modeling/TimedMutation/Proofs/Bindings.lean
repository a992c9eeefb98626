import Mathlib.Data.List.Sort
import TimedMutation.Bindings

/-! The names of a map, what is looked up in a map that was filled from a list or put together from two,
and that a map is known by what is looked up in it. -/

namespace TimedMutation
namespace Bindings

variable {α : Type} {b : Bindings α}

theorem mem_names {x : String} : x ∈ b.names ↔ (b.get? x).isSome = true := by
  simp only [names, get?, List.lookup_isSome_iff, List.mem_map, beq_iff_eq]
  exact exists_congr fun e => and_congr_right fun _ => eq_comm

/-- Of the entries that are put into a map one after the other, the last under a name counts. -/
theorem get?_foldl_insert (entries : List (String × α)) (b : Bindings α) (x : String) :
    (entries.foldl (fun b (name, value) => b.insert name value) b).get? x =
      (entries.reverse.lookup x).or (b.get? x) := by
  induction entries generalizing b with
  | nil => simp
  | cons e entries ih =>
    obtain ⟨n, v⟩ := e
    rw [List.foldl_cons, ih, get?_insert, List.reverse_cons, List.lookup_append, Option.or_assoc]
    by_cases h : x = n
    · simp [h]
    · simp [List.lookup_cons, beq_false_of_ne h, h]

theorem get?_ofList (entries : List (String × α)) (x : String) :
    (ofList entries).get? x = entries.reverse.lookup x := by
  rw [ofList, get?_foldl_insert, get?_empty, Option.or_none]

theorem mem_names_ofList {entries : List (String × α)} {x : String} :
    x ∈ (ofList entries).names ↔ x ∈ entries.map (·.1) := by
  rw [mem_names, get?_ofList, List.lookup_isSome_iff]
  simp only [List.mem_reverse, beq_iff_eq, List.mem_map]
  exact exists_congr fun e => and_congr_right fun _ => eq_comm

theorem mem_of_get?_ofList {entries : List (String × α)} {x : String} {v : α}
    (h : (ofList entries).get? x = some v) : (x, v) ∈ entries := by
  rw [get?_ofList] at h
  obtain ⟨l₁, l₂, hsplit, -⟩ := List.lookup_eq_some_iff.mp h
  have hmem : (x, v) ∈ entries.reverse := by simp [hsplit]
  exact List.mem_reverse.mp hmem

theorem mem_names_insert {name x : String} {value : α} :
    x ∈ (b.insert name value).names ↔ x = name ∨ x ∈ b.names := by
  rw [mem_names, mem_names, get?_insert]
  split <;> simp_all

/-! ### Maps are known by their values -/

theorem nodup_names (b : Bindings α) : b.names.Nodup := by
  rw [names, List.Nodup, List.pairwise_map]
  refine b.ascending.imp ?_
  intro x y hlt heq
  exact String.lt_irrefl _ (heq ▸ hlt)

/-- Where no key stands twice, what is looked up is what the list holds. -/
theorem lookup_eq_some_iff {κ : Type} [BEq κ] [LawfulBEq κ] {entries : List (κ × α)}
    (h : (entries.map (·.1)).Nodup) {x : κ} {v : α} :
    entries.lookup x = some v ↔ (x, v) ∈ entries := by
  induction entries with
  | nil => simp
  | cons e entries ih =>
    obtain ⟨n, w⟩ := e
    rw [List.map_cons, List.nodup_cons] at h
    by_cases hx : x = n
    · subst hx
      have hrest : (x, v) ∉ entries := fun hmem => h.1 (List.mem_map.mpr ⟨_, hmem, rfl⟩)
      simp [hrest, eq_comm]
    · simp [List.lookup_cons, beq_false_of_ne hx, hx, ih h.2]

theorem get?_eq_some_iff {x : String} {v : α} : b.get? x = some v ↔ (x, v) ∈ b.entries :=
  lookup_eq_some_iff b.nodup_names

theorem lookup_reverse_entries (b : Bindings α) (x : String) :
    b.entries.reverse.lookup x = b.get? x := by
  have hnames : (b.entries.reverse.map (·.1)).Nodup := by
    rw [List.map_reverse]
    exact List.nodup_reverse.mpr b.nodup_names
  ext v
  rw [lookup_eq_some_iff hnames, List.mem_reverse, get?_eq_some_iff]

/-- Of two maps the second one counts where both have a value. -/
@[simp] theorem get?_map {β : Type} (f : α → β) (b : Bindings α) (x : String) :
    (b.map f).get? x = (b.get? x).map f := by
  obtain ⟨entries, hascending⟩ := b
  simp only [get?, map]
  clear hascending
  induction entries with
  | nil => rfl
  | cons entry entries ih =>
    rw [List.map_cons, List.lookup_cons, List.lookup_cons]
    cases x == entry.1 with
    | true => rfl
    | false => exact ih

@[simp] theorem get?_union (b c : Bindings α) (x : String) :
    (b.union c).get? x = (c.get? x).or (b.get? x) := by
  rw [union, get?_foldl_insert, lookup_reverse_entries]

theorem mem_names_union {c : Bindings α} {x : String} :
    x ∈ (b.union c).names ↔ x ∈ b.names ∨ x ∈ c.names := by
  rw [mem_names, mem_names, mem_names, get?_union, Option.isSome_or, Bool.or_eq_true, or_comm]

theorem ext_get? {c : Bindings α} (h : ∀ x, b.get? x = c.get? x) : b = c := by
  have hmem : ∀ e, e ∈ b.entries ↔ e ∈ c.entries := by
    intro e
    rw [← get?_eq_some_iff, h, get?_eq_some_iff]
  have hirrefl : Std.Irrefl fun x y : String × α => x.1 < y.1 := ⟨fun x => String.lt_irrefl x.1⟩
  have hantisymm : Std.Antisymm fun x y : String × α => x.1 < y.1 :=
    ⟨fun x y hxy hyx => absurd hyx (String.lt_asymm hxy)⟩
  have hentries : b.entries = c.entries := b.ascending.eq_of_mem_iff c.ascending hmem
  cases b
  cases c
  cases hentries
  rfl

/-- Another value under a name that is put into a map counts unless that name is put in again later. -/
theorem foldl_insert_replaced (before rest : List (String × α)) (name : String) (old new : α)
    (b : Bindings α) :
    (before ++ (name, new) :: rest).foldl (fun b (name, value) => b.insert name value) b =
      if name ∈ rest.map (·.1) then
        (before ++ (name, old) :: rest).foldl (fun b (name, value) => b.insert name value) b
      else
        ((before ++ (name, old) :: rest).foldl (fun b (name, value) => b.insert name value) b).insert
          name new := by
  have hmem : name ∈ rest.map (·.1) ↔ (rest.reverse.lookup name).isSome = true := by
    simp only [List.lookup_isSome_iff, List.mem_reverse, beq_iff_eq, List.mem_map]
    exact exists_congr fun e => and_congr_right fun _ => eq_comm
  have hlookup : ∀ (value : α) (x : String), (before ++ (name, value) :: rest).reverse.lookup x =
      ((rest.reverse.lookup x).or (if x = name then some value else none)).or
        (before.reverse.lookup x) := by
    intro value x
    rw [List.reverse_append, List.reverse_cons, List.lookup_append, List.lookup_append]
    by_cases hx : x = name
    · simp [hx]
    · simp [List.lookup_cons, beq_false_of_ne hx, hx]
  refine ext_get? fun x => ?_
  split
  · rename_i hlater
    obtain ⟨later, hfound⟩ := Option.isSome_iff_exists.mp (hmem.mp hlater)
    rw [get?_foldl_insert, get?_foldl_insert, hlookup, hlookup]
    by_cases hx : x = name
    · subst hx
      simp [hfound]
    · simp [hx]
  · rename_i hlast
    have hnone : rest.reverse.lookup name = none :=
      Option.not_isSome_iff_eq_none.mp (mt hmem.mpr hlast)
    rw [get?_insert, get?_foldl_insert, get?_foldl_insert, hlookup, hlookup]
    by_cases hx : x = name
    · subst hx
      simp [hnone]
    · simp [hx]

/-- Two maps without a common name may be put together in either order. -/
theorem union_comm {c : Bindings α} (h : ∀ x ∈ b.names, x ∉ c.names) : b.union c = c.union b := by
  refine ext_get? fun x => ?_
  rw [get?_union, get?_union]
  cases hb : b.get? x with
  | none => simp
  | some v =>
    have hx : x ∉ c.names := h x (mem_names.mpr (by simp [hb]))
    cases hc : c.get? x with
    | none => rfl
    | some w => exact absurd (mem_names.mpr (by simp [hc])) hx

end Bindings
end TimedMutation
