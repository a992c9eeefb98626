import TimedMutation.Proofs.Mutation.Validity
import TimedMutation.Proofs.Simulation.Exchange

/-! Where a mutant can be told from its component: only by an action that is asked for in a location
that the edited edge leaves, before or after the edit. -/

namespace TimedMutation

/-- A filter that rejects an item and its replacement does not tell that it was replaced. -/
theorem filter_zipIdx_set {α : Type} {p : α × ℕ → Bool} {as : List α} {k n : ℕ} {a b : α}
    (hb : as[k]? = some b) (hold : p (b, n + k) = false) (hnew : p (a, n + k) = false) :
    ((as.set k a).zipIdx n).filter p = (as.zipIdx n).filter p := by
  induction as generalizing k n with
  | nil => simp at hb
  | cons a₀ as ih =>
    cases k with
    | zero =>
      simp only [List.getElem?_cons_zero, Option.some.injEq] at hb
      subst hb
      simp only [Nat.add_zero] at hold hnew
      simp [List.zipIdx_cons, hold, hnew]
    | succ k =>
      have hshift : n + (k + 1) = n + 1 + k := by omega
      rw [hshift] at hold hnew
      have hrest := ih (by simpa using hb) hold hnew
      simp [List.zipIdx_cons, List.filter_cons, hrest]

namespace Edit

variable {c : Component} {edit : Edit} {k : ℕ} {e : Edge}

/-- The locations of the component are found in the mutant, where a sink comes after them. -/
theorem location?_newLocations {id : String} (h : c.hasLocation id = true) (edges : List Edge) :
    Component.location? { c with locations := c.locations ++ edit.newLocations, edges } id =
      c.location? id := by
  obtain ⟨l, hl⟩ := Option.isSome_iff_exists.mp (Component.isSome_location? h)
  simp only [Component.location?] at hl ⊢
  rw [List.find?_append, hl, Option.some_or]

theorem initialLocation?_newLocations (edges : List Edge) :
    Component.initialLocation? { c with locations := c.locations ++ edit.newLocations, edges } =
      c.initialLocation? := by
  have hnone : edit.newLocations.find? (fun l => l.kind == .initial) = none := by
    cases edit <;> simp [newLocations]
  simp only [Component.initialLocation?, List.find?_append, hnone, Option.or_none]

/-- The edges that come with a sink leave the sink alone. -/
theorem AppliesTo.source_ne_of_mem_newEdges (h : edit.AppliesTo c) {id : String}
    (hid : c.hasLocation id = true) (he : e ∈ edit.newEdges c) : e.source ≠ id := by
  cases edit with
  | sink i sink =>
    obtain ⟨label, -, rfl⟩ := List.mem_map.mp he
    simp only [Component.hasLocation, List.any_eq_true, beq_iff_eq] at hid
    obtain ⟨l, hl, rfl⟩ := hid
    exact (h.known l hl).symm
  | source | target | guard | update | action | invariant => simp [newEdges] at he

/-- After an edit of an edge the component is the same in all its locations and in all edges, except
where this edge leaves. -/
theorem AppliesTo.agreesOutside (h : edit.AppliesTo c) (hlocks : c.refreshLocks = c)
    (hk : edit.edge? = some k) (he : c.edges[k]? = some e) :
    c.AgreesOutside (edit.apply c) [e.source, (edit.edited e).source] := by
  rw [h.apply_eq hlocks hk he]
  refine ⟨rfl, initialLocation?_newLocations _, fun id hid => location?_newLocations hid _, ?_⟩
  intro id hid hplace
  simp only [List.mem_cons, List.not_mem_nil, or_false, not_or] at hplace
  have hset := filter_zipIdx_set (p := fun x => x.1.source == id) (n := 0) (a := c.relock (edit.edited e))
    he (by simpa using Ne.symm hplace.1) (by simpa [Component.relock] using Ne.symm hplace.2)
  have hnew : ((edit.newEdges c).zipIdx (0 + (c.edges.set k (c.relock (edit.edited e))).length)).filter
      (fun x => x.1.source == id) = [] := by
    rw [List.filter_eq_nil_iff]
    intro x hx
    simpa using h.source_ne_of_mem_newEdges hid (List.fst_mem_of_mem_zipIdx hx)
  simp only [List.zipIdx_append, List.filter_append, hset, hnew, List.append_nil]

end Edit

/-- A mutant of a class that edits an edge starts as its component does. From then on both reply
alike to everything that is asked of them and are in the same state, until an action is asked for in
a location that the edited edge leaves in the component or in the mutant. -/
theorem mutant_differs_only_at_edge {c : Component} (hc : c.validate = .ok ())
    (hlocks : c.refreshLocks = c) {m : MutationClass} (hm : m ≠ .changeInvariant)
    {found : List Mutation} (hfound : m.mutations c = .ok found) {x : Mutation} (hx : x ∈ found)
    (process : String) (tieBreak : TieBreak) :
    ∃ k e e', x.edit.edge? = some k ∧ c.edges[k]? = some e ∧
      (x.testCase c).mutant.edges[k]? = some e' ∧
      (∀ j < c.edges.length, j ≠ k → (x.testCase c).mutant.edges[j]? = c.edges[j]?) ∧
      (∀ why, Simulation.start c process tieBreak = .error why ↔
        Simulation.start (x.testCase c).mutant process tieBreak = .error why) ∧
      ∀ s, Simulation.start c process tieBreak = .ok s →
        ∃ t, Simulation.start (x.testCase c).mutant process tieBreak = .ok t ∧ t.view = s.view ∧
          ∀ calls, s.ActsOutside [e.source, e'.source] calls →
            t.transcript calls = s.transcript calls := by
  obtain ⟨hedit, hnone⟩ := MutationClass.appliesTo_of_mutations hfound hx
  have hwell := Component.validate_eq_ok_iff.mp hc
  cases hk : x.edit.edge? with
  | none => exact absurd (hnone hk) hm
  | some k =>
    obtain ⟨e, he, -⟩ := hedit.free k hk
    have hlt := (List.getElem?_eq_some_iff.mp he).1
    have hagrees := hedit.agreesOutside hlocks hk he
    have hedges : (x.testCase c).mutant.edges =
        c.edges.set k (c.relock (x.edit.edited e)) ++ x.edit.newEdges c :=
      congrArg Component.edges (hedit.apply_eq hlocks hk he)
    have hstart := Simulation.start_on hagrees process tieBreak
    refine ⟨k, e, c.relock (x.edit.edited e), rfl, he, ?_, ?_, ?_, ?_⟩
    · rw [hedges, List.getElem?_append_left (by simpa using hlt), List.getElem?_set_self hlt]
    · intro j hj hjk
      rw [hedges, List.getElem?_append_left (by simpa using hj), List.getElem?_set_ne hjk.symm]
    · intro why
      rw [Mutation.testCase, hstart]
      exact map_eq_error.symm
    · intro s hs
      obtain ⟨hsound, hcomponent⟩ := Simulation.sound_of_start hwell hs
      refine ⟨s.on (x.edit.apply c), ?_, s.view_on _, fun calls houtside => ?_⟩
      · rw [Mutation.testCase, hstart, hs]
        rfl
      · exact Simulation.transcript_on (hcomponent ▸ hwell) hsound (hcomponent ▸ hagrees) houtside

/-- A lamp that stays lit behaves like one that goes out as long as nobody asks a lit one to act. -/
theorem mutant_differs_only_at_lit :
    let lamp := Lamp.component
    let start := Simulation.atStart lamp "S" .firstDeclared "Idle"
    let calls := [Call.fire .output "off", .fire .input "press", .delay 1.0]
    lamp.validate = .ok () ∧ lamp.refreshLocks = lamp ∧
      ∃ x ∈ lamp.targetChanges, x.edit = .target 1 "Lit" ∧
        Simulation.start lamp "S" .firstDeclared = .ok start ∧
        start.ActsOutside ["Lit", "Lit"] calls ∧
        ∃ t, Simulation.start (x.testCase lamp).mutant "S" .firstDeclared = .ok t ∧
          t.transcript calls = start.transcript calls := by
  intro lamp start calls
  have hvalid : lamp.validate = .ok () := rfl
  have hlocks : lamp.refreshLocks = lamp := rfl
  have hstart : Simulation.start lamp "S" .firstDeclared = .ok start := rfl
  have hx : ∃ x ∈ lamp.targetChanges, x.edit = .target 1 "Lit" :=
    ⟨_, List.mem_cons_of_mem _ List.mem_cons_self, rfl⟩
  obtain ⟨x, hmem, hedit⟩ := hx
  have houtside : start.ActsOutside ["Lit", "Lit"] calls := by
    have hidle : start.location = "Idle" := rfl
    have hrejected : (start.after (.fire .output "off")).location = "Idle" := rfl
    refine ⟨fun _ => ?_, fun _ => ?_, fun h => h.elim, trivial⟩
    · simp [hidle]
    · simp [hrejected]
  obtain ⟨k, e, e', hk, he, he', -, -, hruns⟩ := mutant_differs_only_at_edge hvalid hlocks
    (m := .changeTarget) (by simp) rfl hmem "S" .firstDeclared
  rw [hedit] at hk
  cases hk
  cases he
  have hsource : e'.source = "Lit" := by
    simp only [Mutation.testCase, hedit] at he'
    cases he'
    rfl
  obtain ⟨t, ht, -, hsame⟩ := hruns start hstart
  refine ⟨hvalid, hlocks, x, hmem, hedit, hstart, houtside, t, ht, hsame calls ?_⟩
  rw [hsource]
  exact houtside

end TimedMutation
