import TimedMutation.Proofs.Mutation.Validity
import TimedMutation.Proofs.Simulation.Calls

/-! The sink that a mutant adds. It takes every declared input and nothing else, lets all time pass,
and is never left. -/

namespace TimedMutation

/-- A location that ignores all inputs: it has no invariant, and the edges that leave it are loops
without guard and update, at least one for each declared input. -/
structure Component.IsSink (c : Component) (id : String) : Prop where
  located : ∃ l, c.location? id = some l ∧ l.invariant = ""
  loops : ∀ e ∈ c.edges, e.source = id → e.target = id ∧ e.guard = "" ∧ e.update = "" ∧
    e.direction = .input ∧ e.sync ∈ c.declarations.inputs
  inputs : ∀ label ∈ c.declarations.inputs, ∃ e ∈ c.edges, e.source = id ∧ e.direction = .input ∧
    e.sync = label

/-- The new location of a sink mutant is a sink. No other edge leaves it, since an edge of the
component leaves one of its locations, also where the edit leads it elsewhere. -/
theorem Component.isSink_apply {c : Component} (hc : c.WellFormed) {id : String}
    (hid : ∀ l ∈ c.locations, l.id ≠ id) (i : ℕ) : ((Edit.sink i id).apply c).IsSink id where
  located := by
    have hnone : c.locations.find? (fun l => l.id == id) = none := by simpa using hid
    exact ⟨{ id }, by simp [Edit.apply, location?, hnone], rfl⟩
  loops e he hsource := by
    obtain ⟨e, hadded, rfl⟩ := List.mem_map.mp he
    rcases List.mem_append.mp hadded with hold | hnew
    · -- The edit keeps the sources of the old edges, and each is a location with another id.
      exfalso
      have hsources : (c.edges.modify i fun e => { e with target := id }).map (·.source) =
          c.edges.map (·.source) :=
        map_modify_of_eq (g := fun e => { e with target := id }) (fun _ => rfl) c.edges i
      have hmem : id ∈ c.edges.map (·.source) := by
        rw [← hsources]
        exact List.mem_map.mpr ⟨e, hold, hsource⟩
      obtain ⟨e', he', rfl⟩ := List.mem_map.mp hmem
      have hleaves := (hc.ends e' he').1
      simp only [hasLocation, List.any_eq_true, beq_iff_eq] at hleaves
      obtain ⟨l, hl, hlocation⟩ := hleaves
      exact hid l hl hlocation
    · obtain ⟨label, hlabel, rfl⟩ := List.mem_map.mp hnew
      exact ⟨rfl, rfl, rfl, rfl, hlabel⟩
  inputs label hlabel := by
    have hloop : Edge.ignoring id label ∈ (c.edges.modify i fun e => { e with target := id }) ++
        c.declarations.inputs.map (Edge.ignoring id) :=
      List.mem_append_right _ (List.mem_map_of_mem hlabel)
    exact ⟨_, List.mem_map_of_mem hloop, rfl, rfl, rfl⟩

namespace Simulation

variable {s t : Simulation}

theorem delay_at_sink (h : s.component.IsSink s.location) {amount : Float}
    (hfinite : amount.isFinite = true) (hnonneg : ¬ amount < 0.0) : ∃ t, s.delay amount = .ok t := by
  obtain ⟨l, hl, hinvariant⟩ := h.located
  have hcurrent : s.currentInvariant = "" := by simp [currentInvariant, hl, hinvariant]
  exact ⟨_, delay_eq_ok.mpr ⟨hfinite, hnonneg, by rw [hcurrent]; rfl, rfl⟩⟩

/-- A loop at a sink changes nothing but the trace. -/
theorem take_at_sink (h : s.component.IsSink s.location) {x : NumberedEdge} (hx : x ∈ s.leaving) :
    ∃ t, s.take x.1 = .ok t ∧ t.now = s.now := by
  obtain ⟨hedge, hsource⟩ := mem_leaving hx
  obtain ⟨htarget, -, hupdate, -, -⟩ := h.loops x.1 hedge hsource
  obtain ⟨l, hl, hinvariant⟩ := h.located
  have hread : Update.ofText x.1.update = .ok .empty := by rw [hupdate]; rfl
  have hlocation : s.component.location? x.1.target = some l := by rw [htarget, hl]
  refine ⟨_, take_eq_ok.mpr ⟨.empty, [], s.now.clocks, s.now.locals, l, hread, rfl, rfl, hlocation,
    ?_, rfl⟩, ?_⟩
  · rw [hinvariant]
    rfl
  · rw [commit_now, htarget]
    rfl

/-- At a sink the edges with an action are all enabled. -/
theorem enabledEdge?_at_sink (h : s.component.IsSink s.location) (direction : Direction)
    (label : String) :
    s.enabledEdge? direction label =
      .ok (s.tieBreak.pick (s.leaving.filter fun x => x.1.direction == direction && x.1.sync == label)) := by
  have henabled : enabledAmong s.valuation (fun e => .ok (e.direction == direction && e.sync == label))
      s.leaving = .ok (s.leaving.filter fun x => x.1.direction == direction && x.1.sync == label) := by
    refine enabledAmong_of_holds (fun e => e.direction == direction && e.sync == label)
      (fun _ _ => rfl) fun x hx _ => ?_
    obtain ⟨hedge, hsource⟩ := mem_leaving hx
    obtain ⟨-, hguard, -⟩ := h.loops x.1 hedge hsource
    rw [hguard]
    rfl
  rw [enabledEdge?, select, henabled]
  rfl

theorem fire_at_sink (h : s.component.IsSink s.location) {label : String}
    (hlabel : label ∈ s.component.declarations.inputs) :
    ∃ edge t, s.fire .input label = .ok (edge, t) ∧ t.now = s.now := by
  have hselected := enabledEdge?_at_sink h .input label
  obtain ⟨e, he, hsource, hdirection, hsync⟩ := h.inputs label hlabel
  obtain ⟨i, hi, rfl⟩ := List.mem_iff_getElem.mp he
  have hmem : (s.component.edges[i], i) ∈
      s.leaving.filter fun x => x.1.direction == .input && x.1.sync == label := by
    simp only [leaving, List.mem_filter, beq_iff_eq, Bool.and_eq_true]
    exact ⟨⟨List.mk_mem_zipIdx_iff_getElem?.mpr (by simp [hi]), hsource⟩, hdirection, hsync⟩
  cases hpick : s.tieBreak.pick
      (s.leaving.filter fun x => x.1.direction == .input && x.1.sync == label) with
  | none =>
    rw [TieBreak.pick_eq_none.mp hpick] at hmem
    cases hmem
  | some x =>
    have hx := (List.mem_filter.mp (TieBreak.mem_of_pick hpick)).1
    obtain ⟨t, htake, hnow⟩ := take_at_sink h hx
    rw [hpick] at hselected
    exact ⟨x, t, fire_eq_ok.mpr ⟨hselected, htake⟩, hnow⟩

theorem fire_at_sink_rejected (h : s.component.IsSink s.location) {direction : Direction}
    {label : String} (hother : direction = .output ∨ label ∉ s.component.declarations.inputs) :
    s.fire direction label =
      .error (.step s.process (.noEdge s.location (direction.actionText label))) := by
  have hnone : (s.leaving.filter fun x => x.1.direction == direction && x.1.sync == label) = [] := by
    rw [List.filter_eq_nil_iff]
    intro x hx hchosen
    obtain ⟨hedge, hsource⟩ := mem_leaving hx
    obtain ⟨-, -, -, hdirection, hsync⟩ := h.loops x.1 hedge hsource
    simp only [Bool.and_eq_true, beq_iff_eq] at hchosen
    obtain ⟨rfl, rfl⟩ := hchosen
    rcases hother with hother | hother
    · simp [hdirection] at hother
    · exact hother hsync
  have hselected := enabledEdge?_at_sink h direction label
  rw [hnone, TieBreak.pick_eq_none.mpr rfl] at hselected
  rw [fire, hselected]
  rfl

/-- A step from a sink leads to the sink. -/
theorem location_of_answer_at_sink (h : s.component.IsSink s.location) {call : Call}
    (hanswer : s.answer call = .ok t) : t.location = s.location := by
  rcases answer_eq_ok hanswer with ⟨amount, hdelay⟩ | ⟨x, hx, htake⟩
  · obtain ⟨-, -, -, rfl⟩ := delay_eq_ok.mp hdelay
    rfl
  · obtain ⟨t', htake', hnow⟩ := take_at_sink h hx
    rw [htake] at htake'
    cases htake'
    exact congrArg Snapshot.location hnow

/-- Whatever is asked of a simulation at a sink, it stays there. -/
theorem location_afterAll_at_sink (h : s.component.IsSink s.location) (calls : List Call) :
    (s.afterAll calls).location = s.location := by
  have hstep : ∀ {u t : Simulation} {call : Call},
      u.component.IsSink s.location ∧ u.location = s.location → u.answer call = .ok t →
        t.component.IsSink s.location ∧ t.location = s.location := by
    rintro u t call ⟨hsink, hlocation⟩ hanswer
    refine ⟨component_of_answer hanswer ▸ hsink, ?_⟩
    rw [← hlocation] at hsink ⊢
    exact location_of_answer_at_sink hsink hanswer
  exact (afterAll_of_answer hstep ⟨h, rfl⟩ calls).2

end Simulation

/-- The location that a sink mutant of a valid component adds is absorbing and open to all inputs. In
every state there that is reached, any time can pass, every declared input is taken and changes
neither location nor clocks nor locals, no other action is taken, and no sequence of requests leads
away. -/
theorem sink_absorbs {c : Component} (hc : c.validate = .ok ()) {found : List Mutation}
    (hfound : MutationClass.sinkLocation.mutations c = .ok found) {x : Mutation} (hx : x ∈ found)
    {process : String} {tieBreak : TieBreak} {s : Simulation}
    (hs : Simulation.start (x.testCase c).mutant process tieBreak = .ok s) {calls : List Call}
    (hsink : (s.afterAll calls).location = c.sinkId) :
    (x.testCase c).mutant.locations = c.locations ++ [{ id := c.sinkId }] ∧
      (∀ amount : Float, amount.isFinite = true → ¬ amount < 0.0 →
        ∃ t, (s.afterAll calls).delay amount = .ok t) ∧
      (∀ label ∈ c.declarations.inputs, ∃ edge t,
        (s.afterAll calls).fire .input label = .ok (edge, t) ∧ t.now = (s.afterAll calls).now) ∧
      (∀ direction label, direction = .output ∨ label ∉ c.declarations.inputs →
        (s.afterAll calls).fire direction label = .error (.step (s.afterAll calls).process
          (.noEdge c.sinkId (direction.actionText label)))) ∧
      ∀ more, ((s.afterAll calls).afterAll more).location = c.sinkId := by
  cases hfound
  obtain ⟨-, -, his⟩ := Component.addsSink_of_mem hx
  obtain ⟨l, -, -, rfl⟩ := Simulation.start_eq_ok.mp hs
  have hmutant : (x.testCase c).mutant = (Edit.sink _ c.sinkId).apply c :=
    congrArg (Edit.apply c) his.edit
  have hcomponent := Simulation.component_afterAll
    (Simulation.atStart (x.testCase c).mutant process tieBreak l.id) calls
  generalize (Simulation.atStart (x.testCase c).mutant process tieBreak l.id).afterAll calls = t
    at hsink hcomponent ⊢
  replace hcomponent : t.component = (Edit.sink _ c.sinkId).apply c := hcomponent.trans hmutant
  have hdeclared : t.component.declarations = c.declarations := by
    rw [hcomponent, Edit.apply_declarations]
  have hisSink : t.component.IsSink t.location := by
    rw [hcomponent, hsink]
    exact Component.isSink_apply (Component.validate_eq_ok_iff.mp hc) (c.freshId_ne "Sink") _
  refine ⟨by rw [hmutant]; rfl, fun amount => Simulation.delay_at_sink hisSink,
    fun label hlabel => ?_, fun direction label hother => ?_, fun more => ?_⟩
  · exact Simulation.fire_at_sink hisSink (hdeclared ▸ hlabel)
  · rw [← hsink]
    exact Simulation.fire_at_sink_rejected hisSink (hdeclared ▸ hother)
  · rw [Simulation.location_afterAll_at_sink hisSink more, hsink]

/-- A press leads the mutated lamp to its sink. There it no longer goes off. -/
theorem sink_absorbs_pressed_lamp :
    let mutant := (Edit.sink 0 "Sink").apply Lamp.component
    let start := Simulation.atStart mutant "M" .firstDeclared "Idle"
    let calls := [Call.fire .input "press"]
    Lamp.component.validate = .ok () ∧ Simulation.start mutant "M" .firstDeclared = .ok start ∧
      ∃ x ∈ Lamp.component.sinkRedirections, (x.testCase Lamp.component).mutant = mutant ∧
        (start.afterAll calls).location = Lamp.component.sinkId ∧
        (∃ t, (start.afterAll calls).delay 1.0 = .ok t) ∧
        (∃ edge t, (start.afterAll calls).fire .input "press" = .ok (edge, t) ∧
          t.now = (start.afterAll calls).now) ∧
        (start.afterAll calls).fire .output "off" =
          .error (.step (start.afterAll calls).process (.noEdge "Sink" "off!")) ∧
        ((start.afterAll calls).afterAll [.delay 1.0, .fire .output "off"]).location = "Sink" := by
  intro mutant start calls
  have hvalid : Lamp.component.validate = .ok () := rfl
  have hstart : Simulation.start mutant "M" .firstDeclared = .ok start := rfl
  have hx : ∃ x ∈ Lamp.component.sinkRedirections, x.edit = .sink 0 "Sink" :=
    ⟨_, List.mem_cons_self, rfl⟩
  obtain ⟨x, hmem, hedit⟩ := hx
  have hmutant : (x.testCase Lamp.component).mutant = mutant := by
    simp only [Mutation.testCase, hedit]
    rfl
  have hsink : (start.afterAll calls).location = Lamp.component.sinkId := rfl
  obtain ⟨-, hdelay, hinput, hother, hmore⟩ :=
    sink_absorbs hvalid rfl hmem (hmutant ▸ hstart) hsink
  exact ⟨hvalid, hstart, x, hmem, hmutant, hsink, hdelay 1.0 rfl (by decide),
    hinput "press" (by decide), hother .output "off" (.inl rfl), hmore _⟩

end TimedMutation
