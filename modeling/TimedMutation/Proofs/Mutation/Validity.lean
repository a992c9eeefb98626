import TimedMutation.Proofs.Mutation.Operators

/-! Mutants of valid components are valid. Every mutation is an edit that puts into an unlocked edge
only what the component has, or changes an invariant, and such an edit keeps what is validated. -/

namespace TimedMutation

namespace Edit

/-- The place of the edge that is edited. -/
def edge? : Edit → Option ℕ
  | source i _ | target i _ | guard i _ | update i _ | action i _ _ | sink i _ => some i
  | invariant _ _ => none

/-- The edge after the edit, locks aside. -/
def edited (e : Edge) : Edit → Edge
  | source _ id => { e with source := id }
  | target _ id => { e with target := id }
  | guard _ text => { e with guard := text }
  | update _ text => { e with update := text }
  | action _ direction label => { e with direction, sync := label }
  | invariant _ _ => e
  | sink _ id => { e with target := id }

/-- The locations that an edit adds. -/
def newLocations : Edit → List Location
  | sink _ id => [{ id }]
  | _ => []

/-- The edges that an edit adds. -/
def newEdges (c : Component) : Edit → List Edge
  | sink _ id => c.declarations.inputs.map (Edge.ignoring id)
  | _ => []

/-- What an edit writes is a location or a label of the component, or else a new sink. -/
def Knows (c : Component) : Edit → Prop
  | source _ id | target _ id => c.hasLocation id = true
  | action _ direction label => label ∈ c.declarations.labels direction
  | sink _ id => ∀ l ∈ c.locations, l.id ≠ id
  | guard _ _ | update _ _ | invariant _ _ => True

/-- An edit that can be made in a component: of an unlocked edge, with what the component knows. -/
structure AppliesTo (edit : Edit) (c : Component) : Prop where
  free : ∀ i, edit.edge? = some i → ∃ e, c.edges[i]? = some e ∧ e.locked = false
  known : edit.Knows c

variable {c : Component} {edit : Edit} {k : ℕ} {e : Edge}

theorem AppliesTo.intro (hk : edit.edge? = some k) (he : c.edges[k]? = some e)
    (hfree : e.locked = false) (hknown : edit.Knows c) : edit.AppliesTo c where
  free i hi := by
    rw [hk] at hi
    cases hi
    exact ⟨e, he, hfree⟩
  known := hknown

/-- An edit of an edge changes this edge and its lock, and adds what comes with a sink. -/
theorem AppliesTo.apply_eq (h : edit.AppliesTo c) (hlocks : c.refreshLocks = c)
    (hk : edit.edge? = some k) (he : c.edges[k]? = some e) :
    edit.apply c = { c with
      locations := c.locations ++ edit.newLocations
      edges := c.edges.set k (c.relock (edit.edited e)) ++ edit.newEdges c } := by
  have hwith : ∀ change : Edge → Edge, c.withEdge k change =
      { c with
        locations := c.locations ++ []
        edges := c.edges.set k (c.relock (change e)) ++ [] } := by
    intro change
    rw [Component.withEdge, Component.refreshLocks_modify hlocks he, List.append_nil,
      List.append_nil]
  cases edit with
  | source | target | guard | update | action =>
    cases hk
    exact hwith _
  | invariant => cases hk
  | sink i id =>
    cases hk
    obtain ⟨e₁, he₁, hfree⟩ := h.free k rfl
    cases he.symm.trans he₁
    have hlock := congrArg Edge.locked
      (Component.refreshLocks_eq_iff.mp hlocks e (List.mem_of_getElem? he))
    simp only [Component.relock, hfree, Bool.or_eq_false_iff] at hlock
    have hredirected : c.relock { e with target := id } = { e with target := id } := by
      simp [Component.relock, hlock.1, Component.isCompletionId_fresh h.known, hfree]
    rw [apply_sink hlocks he hfree h.known]
    simp [edited, newLocations, newEdges, hredirected]

end Edit

/-- Every mutation is an edit that can be made, and only those of invariants edit no edge. -/
theorem MutationClass.appliesTo_of_mutations {c : Component} {m : MutationClass}
    {found : List Mutation} (hfound : m.mutations c = .ok found) {x : Mutation} (hx : x ∈ found) :
    x.edit.AppliesTo c ∧ (x.edit.edge? = none → m = .changeInvariant) := by
  have hedge : ∀ {k : ℕ} {e : Edge}, x.edit.edge? = some k → c.edges[k]? = some e →
      e.locked = false → x.edit.Knows c →
      x.edit.AppliesTo c ∧ (x.edit.edge? = none → m = .changeInvariant) := by
    intro k e hk he hfree hknown
    refine ⟨.intro hk he hfree hknown, fun hnone => ?_⟩
    rw [hk] at hnone
    cases hnone
  cases m with
  | changeSource =>
    cases hfound
    obtain ⟨he, hfree, hid, -, his⟩ := Component.movesSource_of_mem hx
    exact hedge (by rw [his.edit]; rfl) he hfree (by rw [his.edit]; exact hid)
  | changeTarget =>
    cases hfound
    obtain ⟨he, hfree, hid, -, his⟩ := Component.movesTarget_of_mem hx
    exact hedge (by rw [his.edit]; rfl) he hfree (by rw [his.edit]; exact hid)
  | changeGuardOpClocks | changeGuardOpLocals =>
    obtain ⟨he, hfree, -, -, -, -, -, -, his⟩ := Component.swapsComparison_of_mem hfound hx
    exact hedge (by rw [his.edit]; rfl) he hfree (by rw [his.edit]; trivial)
  | changeGuardConstant =>
    obtain ⟨he, hfree, -, -, his⟩ := Component.shiftsConstant_of_mem hfound hx
    exact hedge (by rw [his.edit]; rfl) he hfree (by rw [his.edit]; trivial)
  | invertReset =>
    obtain ⟨he, hfree, -, -, -, his⟩ := Component.togglesReset_of_mem hfound hx
    exact hedge (by rw [his.edit]; rfl) he hfree (by rw [his.edit]; trivial)
  | changeVarUpdate =>
    obtain ⟨he, hfree, -, -, -, -, -, his⟩ := Component.assignsValue_of_mem hfound hx
    exact hedge (by rw [his.edit]; rfl) he hfree (by rw [his.edit]; trivial)
  | changeInvariant =>
    obtain ⟨-, -, -, -, -, his⟩ := Component.loosensBound_of_mem hfound hx
    refine ⟨⟨fun k hk => ?_, by rw [his.edit]; trivial⟩, fun _ => rfl⟩
    rw [his.edit] at hk
    cases hk
  | changeActionInputs | changeActionOutputs =>
    cases hfound
    obtain ⟨he, hfree, hlabel, -, his⟩ := Component.givesAction_of_mem hx
    exact hedge (by rw [his.edit]; rfl) he hfree (by rw [his.edit]; exact hlabel)
  | sinkLocation =>
    cases hfound
    obtain ⟨he, hfree, his⟩ := Component.addsSink_of_mem hx
    exact hedge (by rw [his.edit]; rfl) he hfree (by rw [his.edit]; exact c.freshId_ne "Sink")

/-! ### Well-formedness -/

namespace Component

variable {c : Component}

/-- An edge between locations of the component with a label that it declares. -/
structure Admits (c : Component) (e : Edge) : Prop where
  source : c.hasLocation e.source = true
  target : c.hasLocation e.target = true
  label : e.sync ∈ c.declarations.labels e.direction

theorem WellFormed.admits (h : c.WellFormed) {e : Edge} (he : e ∈ c.edges) : c.Admits e :=
  ⟨(h.ends e he).1, (h.ends e he).2, h.labels e he⟩

theorem hasLocation_append {id : String} (ls : List Location) (edges : List Edge)
    (h : c.hasLocation id = true) :
    hasLocation { c with locations := c.locations ++ ls, edges } id = true := by
  simp only [hasLocation, List.any_append, Bool.or_eq_true] at h ⊢
  exact .inl h

/-- A component stays well formed if locations with new ids come that are not initial, and if all its
edges are admitted. -/
theorem WellFormed.grow (h : c.WellFormed) {ls : List Location} {edges : List Edge}
    (hids : (ls.map (·.id)).Nodup) (hfresh : ∀ l ∈ ls, ∀ l' ∈ c.locations, l'.id ≠ l.id)
    (hordinary : ∀ l ∈ ls, l.kind ≠ .initial)
    (hedges : ∀ e ∈ edges, Admits { c with locations := c.locations ++ ls, edges } e) :
    WellFormed { c with locations := c.locations ++ ls, edges } where
  uniqueIds := by
    rw [List.map_append, List.nodup_append]
    refine ⟨h.uniqueIds, hids, ?_⟩
    intro id hid id' hid'
    obtain ⟨l', hl', rfl⟩ := List.mem_map.mp hid
    obtain ⟨l, hl, rfl⟩ := List.mem_map.mp hid'
    exact hfresh l hl l' hl'
  oneInitial := by
    have hnone : ls.countP (fun l => l.kind == .initial) = 0 := by
      simpa [List.countP_eq_zero] using hordinary
    rw [List.countP_append, hnone]
    exact h.oneInitial
  ends e he := ⟨(hedges e he).source, (hedges e he).target⟩
  labels e he := (hedges e he).label
  ranges := h.ranges

theorem map_modify_of_eq {α β : Type} {f : α → β} {g : α → α} (h : ∀ a, f (g a) = f a) (as : List α)
    (i : ℕ) : (as.modify i g).map f = as.map f := by
  induction as generalizing i with
  | nil => simp
  | cons a as ih =>
    cases i with
    | zero => simp [h]
    | succ i => simp [ih i]

/-- No condition is about the text of an invariant. -/
theorem WellFormed.invariant (h : c.WellFormed) (i : ℕ) (text : String) :
    ((Edit.invariant i text).apply c).WellFormed := by
  have hids : ((Edit.invariant i text).apply c).locations.map (·.id) = c.locations.map (·.id) :=
    map_modify_of_eq (g := fun l => { l with invariant := text }) (fun _ => rfl) c.locations i
  have hkinds : ((Edit.invariant i text).apply c).locations.map (·.kind) =
      c.locations.map (·.kind) :=
    map_modify_of_eq (g := fun l => { l with invariant := text }) (fun _ => rfl) c.locations i
  have hhas : ∀ id, ((Edit.invariant i text).apply c).hasLocation id = c.hasLocation id := by
    intro id
    have hany := congrArg (fun ids => ids.any (· == id)) hids
    simp only [List.any_map] at hany
    exact hany
  have hinitial : ((Edit.invariant i text).apply c).locations.countP (fun l => l.kind == .initial) =
      c.locations.countP fun l => l.kind == .initial := by
    have hcount := congrArg (fun kinds => kinds.countP (· == LocationKind.initial)) hkinds
    simp only [List.countP_map] at hcount
    exact hcount
  constructor
  · exact hids ▸ h.uniqueIds
  · exact hinitial.trans h.oneInitial
  · intro e he
    have hends := h.ends e he
    exact ⟨(hhas _).trans hends.1, (hhas _).trans hends.2⟩
  · exact h.labels
  · exact h.ranges

/-- The edge after an edit is one that the component admits, with the sink where there is one. -/
theorem admits_edited {edit : Edit} (h : edit.AppliesTo c) {e : Edge} (he : c.Admits e)
    (edges : List Edge) :
    Admits { c with locations := c.locations ++ edit.newLocations, edges } (edit.edited e) := by
  have hsource := hasLocation_append edit.newLocations edges he.source
  have htarget := hasLocation_append edit.newLocations edges he.target
  cases edit with
  | source i id => exact ⟨hasLocation_append _ _ h.known, htarget, he.label⟩
  | target i id => exact ⟨hsource, hasLocation_append _ _ h.known, he.label⟩
  | action => exact ⟨hsource, htarget, h.known⟩
  | guard | update | invariant => exact ⟨hsource, htarget, he.label⟩
  | sink i id => exact ⟨hsource, hasLocation_of_mem (l := { id }) (by simp [Edit.newLocations]), he.label⟩

/-- The loops at a sink are edges between locations with declared labels. -/
theorem admits_new {edit : Edit} {e : Edge} (he : e ∈ edit.newEdges c) (edges : List Edge) :
    Admits { c with locations := c.locations ++ edit.newLocations, edges } e := by
  cases edit with
  | sink i id =>
    obtain ⟨label, hlabel, rfl⟩ := List.mem_map.mp he
    have hsink : hasLocation { c with locations := c.locations ++ [({ id } : Location)], edges } id =
        true := hasLocation_of_mem (l := { id }) (by simp)
    exact ⟨hsink, hsink, hlabel⟩
  | source | target | guard | update | action | invariant => simp [Edit.newEdges] at he

/-- Every edit that can be made in a well-formed component keeps it well formed. -/
theorem WellFormed.apply (h : c.WellFormed) (hlocks : c.refreshLocks = c) {edit : Edit}
    (hedit : edit.AppliesTo c) : (edit.apply c).WellFormed := by
  cases hk : edit.edge? with
  | none =>
    cases edit with
    | invariant i text => exact h.invariant i text
    | source | target | guard | update | action | sink => cases hk
  | some k =>
    obtain ⟨e, he, hfree⟩ := hedit.free k hk
    rw [hedit.apply_eq hlocks hk he]
    refine h.grow ?_ ?_ ?_ ?_
    · cases edit <;> simp [Edit.newLocations]
    · intro l hl
      cases edit with
      | sink i id =>
        cases List.mem_singleton.mp hl
        exact hedit.known
      | source | target | guard | update | action | invariant => simp [Edit.newLocations] at hl
    · cases edit <;> simp [Edit.newLocations]
    · intro e' he'
      rcases List.mem_append.mp he' with he' | he'
      · rcases List.mem_or_eq_of_mem_set he' with hold | rfl
        · have hadmits := h.admits hold
          exact ⟨hasLocation_append _ _ hadmits.source, hasLocation_append _ _ hadmits.target,
            hadmits.label⟩
        · have hadmits := admits_edited hedit (h.admits (List.mem_of_getElem? he))
          exact ⟨(hadmits _).source, (hadmits _).target, (hadmits []).label⟩
      · exact admits_new he' _

/-- If the locks are up to date, exactly the edges at completion locations are locked. -/
theorem locked_iff (hlocks : c.refreshLocks = c) {e : Edge} (he : e ∈ c.edges) :
    e.locked = true ↔ ∃ l ∈ c.locations, (l.kind = .inconsistent ∨ l.kind = .universal) ∧
      (l.id = e.source ∨ l.id = e.target) := by
  have hkind : ∀ l : Location, l.kind.isCompletion = true ↔
      l.kind = .inconsistent ∨ l.kind = .universal := by
    intro l
    cases l.kind <;> simp [LocationKind.isCompletion]
  have hlock := congrArg Edge.locked (refreshLocks_eq_iff.mp hlocks e he)
  rw [← hlock]
  simp only [relock, isCompletionId, Bool.or_eq_true, List.any_eq_true, Bool.and_eq_true,
    beq_iff_eq, hkind]
  constructor
  · rintro (⟨l, hl, hk, hid⟩ | ⟨l, hl, hk, hid⟩)
    · exact ⟨l, hl, hk, .inl hid⟩
    · exact ⟨l, hl, hk, .inr hid⟩
  · rintro ⟨l, hl, hk, hid | hid⟩
    · exact .inl ⟨l, hl, hk, hid⟩
    · exact .inr ⟨l, hl, hk, hid⟩

end Component

/-- Every mutant of a valid component whose locks are up to date is valid, and its locks are up to
date: exactly its edges at completion locations are locked. -/
theorem mutant_validates {c : Component} (hc : c.validate = .ok ()) (hlocks : c.refreshLocks = c)
    {m : MutationClass} {found : List Mutation} (hfound : m.mutations c = .ok found) {x : Mutation}
    (hx : x ∈ found) :
    (x.testCase c).mutant.validate = .ok () ∧
      (x.testCase c).mutant.refreshLocks = (x.testCase c).mutant ∧
      ∀ e ∈ (x.testCase c).mutant.edges, e.locked = true ↔
        ∃ l ∈ (x.testCase c).mutant.locations, (l.kind = .inconsistent ∨ l.kind = .universal) ∧
          (l.id = e.source ∨ l.id = e.target) := by
  obtain ⟨hedit, -⟩ := MutationClass.appliesTo_of_mutations hfound hx
  have hwell := Component.validate_eq_ok_iff.mp hc
  have hmutant := x.edit.refreshLocks_apply hlocks
  refine ⟨?_, hmutant, fun e he => Component.locked_iff hmutant he⟩
  exact Component.validate_eq_ok_iff.mpr (hwell.apply hlocks hedit)

/-- A lamp with an inconsistent location, to which a press is led: the edge is then locked. -/
theorem mutant_validates_breaking_lamp :
    let broken : Location := { id := "Broken", kind := .inconsistent }
    let lamp := { Lamp.component with locations := Lamp.component.locations ++ [broken] }
    lamp.validate = .ok () ∧ lamp.refreshLocks = lamp ∧
      ∃ x ∈ lamp.targetChanges, x.edit = .target 0 "Broken" ∧
        (x.testCase lamp).mutant.validate = .ok () ∧
        (x.testCase lamp).mutant.edges.map (·.locked) = [true, false] := by
  intro broken lamp
  have hvalid : lamp.validate = .ok () := rfl
  have hlocks : lamp.refreshLocks = lamp := rfl
  have hx : ∃ x ∈ lamp.targetChanges, x.edit = .target 0 "Broken" :=
    ⟨_, List.mem_cons_of_mem _ List.mem_cons_self, rfl⟩
  obtain ⟨x, hmem, hedit⟩ := hx
  have hmutant := mutant_validates hvalid hlocks (m := .changeTarget) rfl hmem
  refine ⟨hvalid, hlocks, x, hmem, hedit, hmutant.1, ?_⟩
  simp only [Mutation.testCase, hedit]
  rfl

end TimedMutation
