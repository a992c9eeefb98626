import TimedMutation.Proofs.Simulation.Steps

/-! What is asked of a simulation, what comes of it, and everything for which it can be rejected. -/

namespace TimedMutation

/-- Something that is asked of a simulation. -/
inductive Call where
  | delay (amount : Float)
  | fire (direction : Direction) (label : String)
  | fireRule (rule : ActionRule)

namespace Simulation

variable {s t : Simulation}

/-- What comes of a call: the simulation after it, or why it is rejected. -/
def answer (s : Simulation) : Call → Except SimulationError Simulation
  | .delay amount => s.delay amount
  | .fire direction label => (s.fire direction label).map (·.2)
  | .fireRule rule => (s.fireRule rule).map (·.2)

/-- The simulation after a call, which a rejected call leaves as it was. -/
def after (s : Simulation) (call : Call) : Simulation :=
  match s.answer call with
  | .ok t => t
  | .error _ => s

/-- The simulation after a sequence of calls. -/
def afterAll (s : Simulation) (calls : List Call) : Simulation := calls.foldl after s

/-- A call that is answered takes the time that it asks for or one of the component's edges. -/
theorem answer_eq_ok {call : Call} (h : s.answer call = .ok t) :
    (∃ amount, s.delay amount = .ok t) ∨ ∃ x ∈ s.leaving, s.take x.1 = .ok t := by
  cases call with
  | delay amount => exact .inl ⟨amount, h⟩
  | fire direction label =>
    simp only [answer, map_eq_ok] at h
    obtain ⟨⟨x, t⟩, hfire, rfl⟩ := h
    obtain ⟨hedge, htake⟩ := fire_eq_ok.mp hfire
    exact .inr ⟨x, (of_enabledEdge?_eq_some hedge).1, htake⟩
  | fireRule rule =>
    simp only [answer, map_eq_ok] at h
    obtain ⟨⟨x, t⟩, hfire, rfl⟩ := h
    obtain ⟨hpeek, htake⟩ := fireRule_eq_ok.mp hfire
    exact .inr ⟨x, (of_peekRule?_eq_some hpeek).1, htake⟩

theorem component_of_answer {call : Call} (h : s.answer call = .ok t) :
    t.component = s.component := by
  rcases answer_eq_ok h with ⟨amount, hdelay⟩ | ⟨x, -, htake⟩
  · obtain ⟨-, -, -, rfl⟩ := delay_eq_ok.mp hdelay
    rfl
  · obtain ⟨-, -, -, -, -, -, -, -, -, -, rfl⟩ := take_eq_ok.mp htake
    rfl

/-- What every answered call keeps holds after all calls. -/
theorem afterAll_of_answer {P : Simulation → Prop}
    (hstep : ∀ {s t : Simulation} {call : Call}, P s → s.answer call = .ok t → P t) (h : P s)
    (calls : List Call) : P (s.afterAll calls) := by
  induction calls generalizing s with
  | nil => exact h
  | cons call calls ih =>
    refine ih ?_
    unfold after
    cases hanswer : s.answer call with
    | error why => exact h
    | ok t => exact hstep h hanswer

theorem component_afterAll (s : Simulation) (calls : List Call) :
    (s.afterAll calls).component = s.component :=
  afterAll_of_answer (fun h hanswer => (component_of_answer hanswer).trans h) rfl calls

/-! ### Rejections -/

/-- A state that a step would lead to if the invariant there held. -/
inductive Candidate (s : Simulation) : Snapshot → Prop
  | delay (amount : Float) :
      Candidate s { s.now with clocks := s.now.clocks.map (· + amount) }
  | take {x : NumberedEdge} {values : List (String × Float)} {clocks : Bindings Float}
      {locals : Bindings Int} (leaves : x ∈ s.leaving)
      (assigned : s.assignAll s.now.clocks s.now.locals values = .ok (clocks, locals)) :
      Candidate s ⟨x.1.target, clocks, locals⟩

/-- For what a call can be rejected: the request itself, the choice of an edge, its assignments, or
the location that it leads to. -/
inductive Rejects (s : Simulation) : Call → SimulationError → Prop
  | amount {amount : Float} (bad : amount.isFinite = false ∨ amount < 0.0) :
      Rejects s (.delay amount) (.step s.process (.model (.invalidDelay amount)))
  | required {rule : ActionRule} {e : ExprError}
      (unread : Update.ofText rule.unqualifiedUpdate = .error e) :
      Rejects s (.fireRule rule) (.expression e)
  | guard {call : Call} {x : NumberedEdge} {e : ExprError} (leaves : x ∈ s.leaving)
      (undecided : TimedMutation.holds x.1.guard s.valuation = .error e) :
      Rejects s call (.expression e)
  | update {call : Call} {x : NumberedEdge} {e : ExprError} (leaves : x ∈ s.leaving)
      (unread : Update.ofText x.1.update = .error e) : Rejects s call (.expression e)
  | noEdge {call : Call} (action : String) :
      Rejects s call (.step s.process (.noEdge s.location action))
  | value {call : Call} {x : NumberedEdge} {u : Update} {e : ExprError} (leaves : x ∈ s.leaving)
      (reads : Update.ofText x.1.update = .ok u) (undecided : u.evaluate s.valuation = .error e) :
      Rejects s call (.expression e)
  | bounds {call : Call} (name : String) (value : Int) :
      Rejects s call (.step s.process (.bounds name value))
  | undeclared {call : Call} {x : NumberedEdge} {u : Update} {a : Assignment} (leaves : x ∈ s.leaving)
      (reads : Update.ofText x.1.update = .ok u) (assigns : a ∈ u.assignments)
      (noClock : s.component.isClock a.target = false)
      (noLocal : s.component.local? a.target = none) :
      Rejects s call (.step s.process (.model (.undeclaredTarget a.target)))
  | unknown {call : Call} {x : NumberedEdge} (leaves : x ∈ s.leaving)
      (nowhere : s.component.location? x.1.target = none) :
      Rejects s call (.step s.process (.model (.unknownLocation x.1.target)))
  | invariant {call : Call} {next : Snapshot} {l : Location} {e : ExprError}
      (candidate : s.Candidate next) (located : s.component.location? next.location = some l)
      (undecided : TimedMutation.holds l.invariant next.valuation = .error e) :
      Rejects s call (.expression e)
  | violated {call : Call} (location invariant : String) :
      Rejects s call (.step s.process (.invariant location invariant))

variable {call : Call} {why : SimulationError}

theorem inSimulation_eq_error {α : Type} {r : Except ExprError α} :
    inSimulation r = .error why ↔ ∃ e, r = .error e ∧ .expression e = why := by
  cases r <;> simp [inSimulation]

theorem fault_eq_error {α : Type} {fault : StepFault} :
    (s.fault fault : Except SimulationError α) = .error why ↔ .step s.process fault = why := by
  simp [Simulation.fault]

theorem enter_eq_error {next : Snapshot} {invariant : String} {entry : TraceEntry} :
    s.enter next invariant entry = .error why ↔
      (∃ e, holds invariant next.valuation = .error e ∧ .expression e = why) ∨
        holds invariant next.valuation = .ok false ∧
          .step s.process (.invariant next.location invariant) = why := by
  simp only [enter]
  cases holds invariant next.valuation with
  | error e => simp [inSimulation]
  | ok held => cases held <;> simp [inSimulation, fault_eq_error, pure_ne_error]

/-- The invariant of a location that is not there always holds. -/
theorem rejects_of_delay {amount : Float} (h : s.delay amount = .error why) :
    s.Rejects (.delay amount) why := by
  simp only [delay] at h
  split at h
  · rename_i hbad
    cases fault_eq_error.mp h
    exact .amount (by simpa using hbad)
  · rcases enter_eq_error.mp h with ⟨e, hholds, rfl⟩ | ⟨-, rfl⟩
    · cases hl : s.component.location? s.location with
      | none =>
        simp only [currentInvariant, hl] at hholds
        cases hholds
      | some l =>
        simp only [currentInvariant, hl] at hholds
        exact .invariant (.delay amount) hl hholds
    · exact .violated _ _

theorem enabledAmong_eq_error {v : Valuation} {wanted : Edge → Except ExprError Bool}
    {edges : List NumberedEdge} {e : ExprError} (h : enabledAmong v wanted edges = .error e) :
    ∃ x ∈ edges, wanted x.1 = .error e ∨ TimedMutation.holds x.1.guard v = .error e := by
  induction edges with
  | nil => cases h
  | cons x edges ih =>
    simp only [enabledAmong] at h
    rcases bind_eq_error.mp h with hwanted | ⟨asked, -, h⟩
    · exact ⟨x, List.mem_cons_self, .inl hwanted⟩
    · cases asked with
      | false =>
        simp only [Bool.false_eq_true, if_false, pure_bind] at h
        obtain ⟨y, hy, hwhy⟩ := ih (bind_pure_eq_error.mp h)
        exact ⟨y, List.mem_cons_of_mem _ hy, hwhy⟩
      | true =>
        simp only [if_true] at h
        rcases bind_eq_error.mp h with hguard | ⟨enabled, -, h⟩
        · exact ⟨x, List.mem_cons_self, .inr hguard⟩
        · obtain ⟨y, hy, hwhy⟩ := ih (bind_pure_eq_error.mp h)
          exact ⟨y, List.mem_cons_of_mem _ hy, hwhy⟩

theorem select_eq_error {wanted : Edge → Except ExprError Bool} (h : s.select wanted = .error why) :
    ∃ x ∈ s.leaving, ∃ e, .expression e = why ∧
      (wanted x.1 = .error e ∨ TimedMutation.holds x.1.guard s.valuation = .error e) := by
  obtain ⟨e, he, hwhy⟩ := inSimulation_eq_error.mp h
  obtain ⟨x, hx, hcause⟩ := enabledAmong_eq_error (map_eq_error.mp he)
  exact ⟨x, hx, e, hwhy, hcause⟩

theorem assign_eq_error {clocks : Bindings Float} {locals : Bindings Int} {target : String}
    {value : Float} (h : s.assign clocks locals target value = .error why) :
    (∃ n, .step s.process (.bounds target n) = why) ∨
      s.component.isClock target = false ∧ s.component.local? target = none ∧
        .step s.process (.model (.undeclaredTarget target)) = why := by
  unfold assign at h
  cases hclock : s.component.isClock target with
  | true => simp [hclock] at h
  | false =>
    cases hlocal : s.component.local? target with
    | none =>
      simp only [hclock, hlocal, Bool.false_eq_true, if_false] at h
      exact .inr ⟨rfl, rfl, fault_eq_error.mp h⟩
    | some l =>
      simp only [hclock, hlocal, Bool.false_eq_true, if_false] at h
      split at h
      · cases h
      · exact .inl ⟨_, fault_eq_error.mp h⟩

theorem assignAll_eq_error {clocks : Bindings Float} {locals : Bindings Int}
    {values : List (String × Float)} (h : s.assignAll clocks locals values = .error why) :
    ∃ v ∈ values, ∃ clocks' locals', s.assign clocks' locals' v.1 v.2 = .error why := by
  induction values generalizing clocks locals with
  | nil => cases h
  | cons v values ih =>
    simp only [assignAll] at h
    rcases bind_eq_error.mp h with hfirst | ⟨⟨clocks', locals'⟩, -, hrest⟩
    · exact ⟨v, List.mem_cons_self, clocks, locals, hfirst⟩
    · obtain ⟨w, hw, hwhy⟩ := ih hrest
      exact ⟨w, List.mem_cons_of_mem _ hw, hwhy⟩

/-- The values of an update are those of its assignments. -/
theorem exists_assignment {u : Update} {v : Valuation} {values : List (String × Float)}
    (h : u.evaluate v = .ok values) {x : String × Float} (hx : x ∈ values) :
    ∃ a ∈ u.assignments, a.target = x.1 := by
  obtain ⟨a, ha, hvalue⟩ := exists_of_mem_mapM h hx
  obtain ⟨y, -, hy⟩ := bind_eq_ok.mp hvalue
  cases pure_eq_ok.mp hy
  exact ⟨a, ha, rfl⟩

theorem rejects_of_take {x : NumberedEdge} (hx : x ∈ s.leaving) (h : s.take x.1 = .error why)
    (call : Call) : s.Rejects call why := by
  simp only [take] at h
  rcases bind_eq_error.mp h with hvalues | ⟨values, hvalues, h⟩
  · obtain ⟨e, he, rfl⟩ := inSimulation_eq_error.mp hvalues
    rcases bind_eq_error.mp he with hread | ⟨u, hread, hvalue⟩
    · exact .update hx hread
    · exact .value hx hread hvalue
  · obtain ⟨u, hread, hvalues⟩ := bind_eq_ok.mp (inSimulation_eq_ok.mp hvalues)
    rcases bind_eq_error.mp h with hassign | ⟨⟨clocks, locals⟩, hassign, h⟩
    · obtain ⟨v, hv, clocks, locals, hwhy⟩ := assignAll_eq_error hassign
      obtain ⟨a, ha, htarget⟩ := exists_assignment hvalues hv
      rw [← htarget] at hwhy
      rcases assign_eq_error hwhy with ⟨n, rfl⟩ | ⟨hclock, hlocal, rfl⟩
      · exact .bounds _ _
      · exact .undeclared hx hread ha hclock hlocal
    · split at h
      · rename_i hnone
        cases fault_eq_error.mp h
        exact .unknown hx hnone
      · rename_i l hl
        rcases enter_eq_error.mp h with ⟨e, hholds, rfl⟩ | ⟨-, rfl⟩
        · exact .invariant (.take hx hassign) hl hholds
        · exact .violated _ _

theorem rejects_of_takeSelected {action : String} {selected : Option NumberedEdge}
    (hselected : ∀ x, selected = some x → x ∈ s.leaving)
    (h : s.takeSelected action selected = .error why) (call : Call) : s.Rejects call why := by
  cases selected with
  | none =>
    cases fault_eq_error.mp h
    exact .noEdge action
  | some x => exact rejects_of_take (hselected x rfl) (map_eq_error.mp h) call

theorem rejects_of_fire {direction : Direction} {label : String}
    (h : s.fire direction label = .error why) : s.Rejects (.fire direction label) why := by
  rcases bind_eq_error.mp h with hselect | ⟨selected, hselect, htake⟩
  · obtain ⟨x, hx, e, rfl, hwanted | hguard⟩ := select_eq_error hselect
    · cases hwanted
    · exact .guard hx hguard
  · refine rejects_of_takeSelected (fun x hx => ?_) htake _
    exact (of_enabledEdge?_eq_some (hx ▸ hselect)).1

theorem rejects_of_fireRule {rule : ActionRule} (h : s.fireRule rule = .error why) :
    s.Rejects (.fireRule rule) why := by
  rcases bind_eq_error.mp h with hpeek | ⟨selected, hpeek, htake⟩
  · rcases bind_eq_error.mp hpeek with hrequired | ⟨required, -, hselect⟩
    · obtain ⟨e, he, rfl⟩ := inSimulation_eq_error.mp hrequired
      exact .required he
    · obtain ⟨x, hx, e, rfl, hwanted | hguard⟩ := select_eq_error hselect
      · split at hwanted
        · exact .update hx (map_eq_error.mp hwanted)
        · cases hwanted
      · exact .guard hx hguard
  · refine rejects_of_takeSelected (fun x hx => ?_) htake _
    exact (of_peekRule?_eq_some (hx ▸ hpeek)).1

/-- A call that is not answered is rejected for one of the reasons. -/
theorem rejects_of_answer (h : s.answer call = .error why) : s.Rejects call why := by
  cases call with
  | delay amount => exact rejects_of_delay h
  | fire direction label => exact rejects_of_fire (map_eq_error.mp h)
  | fireRule rule => exact rejects_of_fireRule (map_eq_error.mp h)

end Simulation
end TimedMutation
