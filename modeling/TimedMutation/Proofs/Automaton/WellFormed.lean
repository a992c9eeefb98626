import Mathlib.Data.List.Nodup
import TimedMutation.Automaton.Validation

/-! The conditions that validation checks, and that it accepts exactly the components that meet
them. -/

namespace TimedMutation
namespace Component

variable {c : Component}

/-- The structural conditions on a component. -/
structure WellFormed (c : Component) : Prop where
  uniqueIds : (c.locations.map (·.id)).Nodup
  oneInitial : (c.locations.countP fun l => l.kind == .initial) = 1
  ends : ∀ e ∈ c.edges, c.hasLocation e.source = true ∧ c.hasLocation e.target = true
  labels : ∀ e ∈ c.edges, e.sync ∈ c.declarations.labels e.direction
  ranges : ∀ l ∈ c.declarations.locals, l.contains l.initial = true

theorem edgeFault?_eq_none {e : Edge} {index : ℕ} :
    c.edgeFault? e index = none ↔
      (c.hasLocation e.source = true ∧ c.hasLocation e.target = true) ∧
        e.sync ∈ c.declarations.labels e.direction := by
  have hlabel : ((c.declarations.labels e.direction).any fun label => label == e.sync) = true ↔
      e.sync ∈ c.declarations.labels e.direction := by simp
  unfold edgeFault?
  rw [← hlabel]
  cases c.hasLocation e.source <;> cases c.hasLocation e.target <;> simp

theorem localFault?_eq_none {l : Local} : localFault? l = none ↔ l.contains l.initial = true := by
  unfold localFault?
  split
  · rename_i h
    simp only [reduceCtorEq, false_iff]
    intro hcontains
    rcases h with h | h
    · simp only [Local.contains, Bool.and_eq_true, decide_eq_true_eq] at hcontains
      omega
    · simp [hcontains] at h
  · rename_i h
    simp only [not_or, Bool.not_eq_false] at h
    simp [h.2]

theorem initialFault?_eq_none :
    c.initialFault? = none ↔ (c.locations.countP fun l => l.kind == .initial) = 1 := by
  unfold initialFault?
  split
  · rename_i h
    simp [h]
  · rename_i h
    simp [h]
  · rename_i h
    simpa using h

theorem fault?_eq_none : c.fault? = none ↔ c.WellFormed := by
  have hedges : (∀ e i, (e, i) ∈ c.edges.zipIdx → c.edgeFault? e i = none) ↔
      ∀ e ∈ c.edges, (c.hasLocation e.source = true ∧ c.hasLocation e.target = true) ∧
        e.sync ∈ c.declarations.labels e.direction := by
    simp only [edgeFault?_eq_none]
    constructor
    · intro h e he
      obtain ⟨i, hi, rfl⟩ := List.mem_iff_getElem.mp he
      exact h _ i (List.mk_mem_zipIdx_iff_getElem?.mpr (by simp [hi]))
    · exact fun h e i he => h e (List.fst_mem_of_mem_zipIdx he)
  have hids : (firstRepeated? [] (c.locations.map (·.id))).map ModelError.duplicateLocation = none ↔
      (c.locations.map (·.id)).Nodup := by
    simp [firstRepeated?_eq_none]
  unfold fault?
  split
  · rename_i hempty
    simp only [reduceCtorEq, false_iff]
    intro h
    have hinitial := h.oneInitial
    simp [List.isEmpty_iff.mp hempty] at hinitial
  · simp only [Option.or_eq_none_iff, hids, initialFault?_eq_none, List.findSome?_eq_none_iff,
      Prod.forall, hedges, localFault?_eq_none]
    constructor
    · rintro ⟨hnodup, hone, hedge, hlocal⟩
      exact ⟨hnodup, hone, fun e he => (hedge e he).1, fun e he => (hedge e he).2, hlocal⟩
    · intro h
      exact ⟨h.uniqueIds, h.oneInitial, fun e he => ⟨h.ends e he, h.labels e he⟩, h.ranges⟩

/-- Validation accepts exactly the well-formed components. -/
theorem validate_eq_ok_iff : c.validate = .ok () ↔ c.WellFormed := by
  rw [← fault?_eq_none]
  unfold validate
  split <;> simp_all

/-- The first location with an id is the only one. -/
theorem WellFormed.location?_eq_some_iff (h : c.WellFormed) {id : String} {l : Location} :
    c.location? id = some l ↔ l ∈ c.locations ∧ l.id = id := by
  constructor
  · intro hl
    exact ⟨List.mem_of_find?_eq_some hl, by simpa using List.find?_some hl⟩
  · rintro ⟨hmem, rfl⟩
    have hsome : (c.location? l.id).isSome = true := by
      simp only [location?, List.find?_isSome, beq_iff_eq]
      exact ⟨l, hmem, rfl⟩
    obtain ⟨l', hl'⟩ := Option.isSome_iff_exists.mp hsome
    have hmem' := List.mem_of_find?_eq_some hl'
    have hid : l'.id = l.id := by simpa using List.find?_some hl'
    rw [hl', List.inj_on_of_nodup_map h.uniqueIds hmem' hmem hid]

theorem hasLocation_of_mem {l : Location} (h : l ∈ c.locations) : c.hasLocation l.id = true := by
  simp only [hasLocation, List.any_eq_true, beq_iff_eq]
  exact ⟨l, h, rfl⟩

theorem isSome_location? {id : String} (h : c.hasLocation id = true) :
    (c.location? id).isSome = true := by
  simpa [location?, hasLocation, List.find?_isSome] using h

end Component

/-- A lamp that a press lights and that goes out by itself. -/
def Lamp.component : Component where
  name := "Lamp"
  declarations := { inputs := ["press"], outputs := ["off"] }
  locations := [{ id := "Idle", kind := .initial }, { id := "Lit" }]
  edges := [
    { source := "Idle", target := "Lit", direction := .input, sync := "press" },
    { source := "Lit", target := "Idle", direction := .output, sync := "off" }]

end TimedMutation
