import TimedMutation.Proofs.Simulation.Reachable

/-! Simulations of two components that agree except in the edges that leave a few places. What is
asked of them is answered alike until an action is asked for at one of these places. -/

namespace TimedMutation

/-- The components declare the same names and start in the same location. They agree in every
location that the first one has, and in the edges that leave it unless it is one of the places. -/
structure Component.AgreesOutside (c c' : Component) (places : List String) : Prop where
  declarations : c'.declarations = c.declarations
  initial : c'.initialLocation? = c.initialLocation?
  location : ∀ id, c.hasLocation id = true → c'.location? id = c.location? id
  edges : ∀ id, c.hasLocation id = true → id ∉ places →
    (c'.edges.zipIdx.filter fun (e, _) => e.source == id) =
      c.edges.zipIdx.filter fun (e, _) => e.source == id

/-- Whether a call asks for an action. -/
def Call.AsksAction : Call → Prop
  | .delay _ => False
  | .fire _ _ | .fireRule _ => True

namespace Simulation

variable {s : Simulation} {c' : Component} {places : List String}

/-- What a simulation reports of a call: the edge that it took, or why it rejects the call. -/
def reply (s : Simulation) : Call → Except SimulationError (Option NumberedEdge)
  | .delay amount => (s.delay amount).map fun _ => none
  | .fire direction label => (s.fire direction label).map fun taken => some taken.1
  | .fireRule rule => (s.fireRule rule).map fun taken => some taken.1

/-- What can be seen of a simulation: its location, clocks, locals and trace. -/
def view (s : Simulation) : Snapshot × List TraceEntry := (s.now, s.trace)

/-- The reply to each of a sequence of calls, and what can be seen after it. -/
def transcript (s : Simulation) : List Call →
    List (Except SimulationError (Option NumberedEdge) × Snapshot × List TraceEntry)
  | [] => []
  | call :: calls => (s.reply call, (s.after call).view) :: (s.after call).transcript calls

/-- No call of the sequence asks for an action while the simulation is at one of the places. -/
def ActsOutside (places : List String) (s : Simulation) : List Call → Prop
  | [] => True
  | call :: calls =>
    (call.AsksAction → s.location ∉ places) ∧ (s.after call).ActsOutside places calls

/-! ### The same state in another component -/

/-- The simulation with its component exchanged. -/
def on (s : Simulation) (c' : Component) : Simulation := { s with component := c' }

theorem view_on (s : Simulation) (c' : Component) : (s.on c').view = s.view := rfl

theorem enter_on (next : Snapshot) (invariant : String) (entry : TraceEntry) :
    (s.on c').enter next invariant entry = (s.enter next invariant entry).map (·.on c') := by
  unfold enter
  rw [map_bind]
  congr 1
  funext held
  cases held <;> rfl

theorem delay_on (h : c'.location? s.location = s.component.location? s.location)
    (amount : Float) : (s.on c').delay amount = (s.delay amount).map (·.on c') := by
  have hinvariant : (s.on c').currentInvariant = s.currentInvariant :=
    congrArg (fun l => (l.map Location.invariant).getD "") h
  unfold delay
  rw [hinvariant]
  split
  · rfl
  · exact enter_on _ _ _

theorem assign_on (h : c'.declarations = s.component.declarations) (clocks : Bindings Float)
    (locals : Bindings Int) (target : String) (value : Float) :
    (s.on c').assign clocks locals target value = s.assign clocks locals target value := by
  have hclock : (s.on c').component.isClock target = s.component.isClock target :=
    congrArg (fun d => d.clocks.any fun x => x == target) h
  have hlocal : (s.on c').component.local? target = s.component.local? target :=
    congrArg (fun d => d.locals.find? fun l => l.name == target) h
  unfold assign
  rw [hclock, hlocal]
  rfl

theorem assignAll_on (h : c'.declarations = s.component.declarations) (clocks : Bindings Float)
    (locals : Bindings Int) (values : List (String × Float)) :
    (s.on c').assignAll clocks locals values = s.assignAll clocks locals values := by
  induction values generalizing clocks locals with
  | nil => rfl
  | cons v values ih =>
    simp only [assignAll, assign_on h, ih]

theorem take_on (hdeclared : c'.declarations = s.component.declarations) {e : Edge}
    (htarget : c'.location? e.target = s.component.location? e.target) :
    (s.on c').take e = (s.take e).map (·.on c') := by
  have hlookup : (s.on c').component.location? e.target = s.component.location? e.target := htarget
  simp only [take, map_bind, assignAll_on hdeclared, hlookup]
  congr 1
  funext values
  congr 1
  funext assigned
  cases s.component.location? e.target with
  | none => rfl
  | some target => exact enter_on _ _ _

theorem select_on (h : (s.on c').leaving = s.leaving) (wanted : Edge → Except ExprError Bool) :
    (s.on c').select wanted = s.select wanted := by
  have hselect : (s.on c').select wanted = inSimulation
      ((enabledAmong s.valuation wanted (s.on c').leaving).map s.tieBreak.pick) := rfl
  rw [hselect, h]
  rfl

theorem takeSelected_on (hdeclared : c'.declarations = s.component.declarations) (action : String)
    {selected : Option NumberedEdge}
    (htarget : ∀ x, selected = some x →
      c'.location? x.1.target = s.component.location? x.1.target) :
    (s.on c').takeSelected action selected =
      (s.takeSelected action selected).map fun taken => (taken.1, taken.2.on c') := by
  cases selected with
  | none => rfl
  | some x =>
    simp only [takeSelected, take_on hdeclared (htarget x rfl)]
    cases s.take x.1 <;> rfl

/-- The edge that is selected is taken alike, since it leaves the location and so leads to one that
both components have. -/
theorem fire_on (hdeclared : c'.declarations = s.component.declarations)
    (hleaving : (s.on c').leaving = s.leaving)
    (htarget : ∀ x ∈ s.leaving, c'.location? x.1.target = s.component.location? x.1.target)
    (direction : Direction) (label : String) :
    (s.on c').fire direction label =
      (s.fire direction label).map fun taken => (taken.1, taken.2.on c') := by
  have hedge : (s.on c').enabledEdge? direction label = s.enabledEdge? direction label :=
    select_on hleaving _
  simp only [fire, hedge]
  cases hselected : s.enabledEdge? direction label with
  | error why => rfl
  | ok selected =>
    refine takeSelected_on hdeclared _ fun x hx => htarget x ?_
    exact (of_enabledEdge?_eq_some (hx ▸ hselected)).1

theorem fireRule_on (hdeclared : c'.declarations = s.component.declarations)
    (hleaving : (s.on c').leaving = s.leaving)
    (htarget : ∀ x ∈ s.leaving, c'.location? x.1.target = s.component.location? x.1.target)
    (rule : ActionRule) :
    (s.on c').fireRule rule = (s.fireRule rule).map fun taken => (taken.1, taken.2.on c') := by
  have hpeek : (s.on c').peekRule? rule = s.peekRule? rule := by
    simp only [peekRule?, select_on hleaving]
  simp only [fireRule, hpeek]
  cases hselected : s.peekRule? rule with
  | error why => rfl
  | ok selected =>
    refine takeSelected_on hdeclared _ fun x hx => htarget x ?_
    exact (of_peekRule?_eq_some (hx ▸ hselected)).1

/-! ### Calls -/

/-- One call is answered alike, and the two simulations stay in the same state. -/
theorem call_on (hc : s.component.WellFormed) (hs : s.Sound)
    (h : s.component.AgreesOutside c' places) {call : Call}
    (houtside : call.AsksAction → s.location ∉ places) :
    (s.on c').reply call = s.reply call ∧ (s.on c').after call = (s.after call).on c' := by
  obtain ⟨l, hl, -⟩ := hs.located
  have hhere : s.component.hasLocation s.location = true := by
    have hid : l.id = s.location := by simpa using List.find?_some hl
    exact hid ▸ Component.hasLocation_of_mem (List.mem_of_find?_eq_some hl)
  have htarget : ∀ x ∈ s.leaving, c'.location? x.1.target = s.component.location? x.1.target :=
    fun x hx => h.location _ (hc.ends x.1 (mem_leaving hx).1).2
  cases call with
  | delay amount =>
    have hdelay := delay_on (h.location _ hhere) amount
    simp only [reply, after, answer, hdelay]
    cases s.delay amount <;> exact ⟨rfl, rfl⟩
  | fire direction label =>
    have hleaving : (s.on c').leaving = s.leaving := h.edges _ hhere (houtside trivial)
    have hfire := fire_on h.declarations hleaving htarget direction label
    simp only [reply, after, answer, hfire]
    cases s.fire direction label <;> exact ⟨rfl, rfl⟩
  | fireRule rule =>
    have hleaving : (s.on c').leaving = s.leaving := h.edges _ hhere (houtside trivial)
    have hfire := fireRule_on h.declarations hleaving htarget rule
    simp only [reply, after, answer, hfire]
    cases s.fireRule rule <;> exact ⟨rfl, rfl⟩

theorem transcript_on (hc : s.component.WellFormed) (hs : s.Sound)
    (h : s.component.AgreesOutside c' places) {calls : List Call}
    (houtside : s.ActsOutside places calls) :
    (s.on c').transcript calls = s.transcript calls := by
  induction calls generalizing s with
  | nil => rfl
  | cons call calls ih =>
    obtain ⟨hcall, hrest⟩ := houtside
    obtain ⟨hreply, hafter⟩ := call_on hc hs h hcall
    obtain ⟨hsound, hsame⟩ := hs.after call
    rw [← hsame] at hc h
    simp only [transcript, hreply, hafter, view_on, ih hc hsound h hrest]

/-- A simulation starts alike in components that agree in where it starts. -/
theorem start_on {c : Component} (h : c.AgreesOutside c' places) (process : String)
    (tieBreak : TieBreak) :
    start c' process tieBreak = (start c process tieBreak).map (·.on c') := by
  have hstate : ∀ id, atStart c' process tieBreak id = (atStart c process tieBreak id).on c' := by
    intro id
    simp only [atStart, on, h.declarations]
  have hvaluation : ∀ id, (atStart c' process tieBreak id).valuation =
      (atStart c process tieBreak id).valuation := by
    intro id
    rw [hstate]
    rfl
  simp only [start, h.initial]
  cases c.initialLocation? with
  | none => rfl
  | some l =>
    simp only [hvaluation, map_bind]
    congr 1
    funext held
    cases held with
    | false => rfl
    | true => exact congrArg Except.ok (hstate l.id)

end Simulation
end TimedMutation
