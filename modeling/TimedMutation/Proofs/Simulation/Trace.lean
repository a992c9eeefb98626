import Mathlib.Data.List.Chain
import TimedMutation.Proofs.Automaton.WellFormed
import TimedMutation.Proofs.Simulation.Calls

/-! The trace of a simulation is a path of its component: every action in it is that of an edge, and
it starts where the action before it ended. -/

namespace TimedMutation

/-- The target of the last action among the entries, or where they start if there is none. -/
def TraceEntry.reached (start : String) (entries : List TraceEntry) : String :=
  (entries.filterMap target?).getLast?.getD start

/-- The component allows an entry while it is in a location: a delay there, or the action of an edge
that leaves it. -/
inductive Component.Allows (c : Component) (here : String) : TraceEntry → Prop
  | delay (amount : Float) : c.Allows here (.delay here amount)
  | action {e : Edge} (edge : e ∈ c.edges) (leaves : e.source = here) :
      c.Allows here (.action here e.target e.action)

/-- An edge leads from one location to another. -/
def Component.Joins (c : Component) (source target : String) : Prop :=
  ∃ e ∈ c.edges, e.source = source ∧ e.target = target

open TraceEntry (reached)

@[simp] theorem TraceEntry.reached_nil (start : String) : reached start [] = start := rfl

@[simp] theorem TraceEntry.reached_concat (start : String) (entries : List TraceEntry)
    (entry : TraceEntry) :
    reached start (entries ++ [entry]) = entry.target?.getD (reached start entries) := by
  cases h : entry.target? <;> simp [reached, h]

namespace Simulation

variable {s t : Simulation}

/-- What one step does to a simulation: it adds an entry that is allowed where it starts, and leads
to the target of the entry. -/
structure Advances (s t : Simulation) (entry : TraceEntry) : Prop where
  component : t.component = s.component
  initial : t.initial = s.initial
  trace : t.trace = s.trace ++ [entry]
  allowed : s.component.Allows s.location entry
  location : t.location = entry.target?.getD s.location

theorem advances_of_delay {amount : Float} (h : s.delay amount = .ok t) :
    s.Advances t (.delay s.location amount) := by
  obtain ⟨-, -, -, rfl⟩ := delay_eq_ok.mp h
  exact ⟨rfl, rfl, commit_trace _ _ _, .delay amount, rfl⟩

theorem advances_of_take {x : NumberedEdge} (hx : x ∈ s.leaving) (h : s.take x.1 = .ok t) :
    s.Advances t (.action x.1.source x.1.target x.1.action) := by
  obtain ⟨hedge, hsource⟩ := mem_leaving hx
  obtain ⟨-, -, clocks, locals, -, -, -, -, -, -, rfl⟩ := take_eq_ok.mp h
  refine ⟨rfl, rfl, commit_trace _ _ _, ?_, rfl⟩
  rw [hsource]
  exact .action hedge hsource

theorem advances_of_answer {call : Call} (h : s.answer call = .ok t) :
    ∃ entry, s.Advances t entry := by
  rcases answer_eq_ok h with ⟨amount, hdelay⟩ | ⟨x, hx, htake⟩
  · exact ⟨_, advances_of_delay hdelay⟩
  · exact ⟨_, advances_of_take hx htake⟩

/-- The trace leads from the initial location to the present one by steps that the component
allows. -/
structure Traced (s : Simulation) : Prop where
  here : s.location = reached s.initial s.trace
  allowed : ∀ before entry later, s.trace = before ++ entry :: later →
    s.component.Allows (reached s.initial before) entry
  path : s.path.IsChain s.component.Joins

theorem getLast?_path (s : Simulation) :
    s.path.getLast? = some (reached s.initial s.trace) := by
  rw [path, List.getLast?_cons]
  rfl

theorem Advances.path {entry : TraceEntry} (h : s.Advances t entry) :
    t.path = s.path ++ entry.target?.toList := by
  simp only [Simulation.path, h.initial, h.trace, List.filterMap_append]
  cases hentry : entry.target? <;> simp [hentry]

theorem Traced.advance (h : s.Traced) {entry : TraceEntry} (hstep : s.Advances t entry) :
    t.Traced where
  here := by
    rw [hstep.location, hstep.initial, hstep.trace, TraceEntry.reached_concat, h.here]
  allowed before entry' later hsplit := by
    rw [hstep.trace] at hsplit
    rw [hstep.component, hstep.initial]
    -- The entry is one of the old ones, unless nothing comes after it.
    rcases List.eq_nil_or_concat later with rfl | ⟨later, last, rfl⟩
    · obtain ⟨rfl, hentry⟩ := List.append_inj' hsplit rfl
      cases hentry
      exact h.here ▸ hstep.allowed
    · have hold : s.trace ++ [entry] = (before ++ entry' :: later) ++ [last] := by simpa using hsplit
      exact h.allowed before entry' later (List.append_inj' hold rfl).1
  path := by
    rw [hstep.component, hstep.path, List.isChain_append]
    refine ⟨h.path, ?_, ?_⟩
    · cases entry.target? <;> simp
    · intro a ha b hb
      rw [getLast?_path, ← h.here] at ha
      cases ha
      cases hstep.allowed with
      | delay amount => simp [TraceEntry.target?] at hb
      | action hedge hsource =>
        cases hb
        exact ⟨_, hedge, hsource, rfl⟩

theorem traced_of_start {c : Component} {process : String} {tieBreak : TieBreak}
    (h : start c process tieBreak = .ok s) : s.Traced := by
  obtain ⟨l, -, -, rfl⟩ := start_eq_ok.mp h
  have htrace : (atStart c process tieBreak l.id).trace = [] := rfl
  constructor
  · rw [htrace]
    rfl
  · intro before entry later hsplit
    simp [htrace] at hsplit
  · simp [path, htrace]

/-- A call adds what its step adds, or is rejected and leaves the simulation as it was. -/
theorem advances_or_same (s : Simulation) (call : Call) :
    (∃ entry, s.answer call = .ok (s.after call) ∧ s.Advances (s.after call) entry) ∨
      (∃ why, s.answer call = .error why) ∧ s.after call = s := by
  unfold after
  cases h : s.answer call with
  | error why => exact .inr ⟨⟨why, rfl⟩, rfl⟩
  | ok t =>
    obtain ⟨entry, hstep⟩ := advances_of_answer h
    exact .inl ⟨entry, rfl, hstep⟩

theorem Traced.afterAll (h : s.Traced) (calls : List Call) :
    (s.afterAll calls).Traced ∧ (s.afterAll calls).component = s.component ∧
      (s.afterAll calls).initial = s.initial := by
  have hstep : ∀ {t u : Simulation} {call : Call},
      t.Traced ∧ t.component = s.component ∧ t.initial = s.initial → t.answer call = .ok u →
        u.Traced ∧ u.component = s.component ∧ u.initial = s.initial := by
    rintro t u call ⟨htraced, hcomponent, hinitial⟩ hanswer
    obtain ⟨entry, hadvances⟩ := advances_of_answer hanswer
    exact ⟨htraced.advance hadvances, hadvances.component.trans hcomponent,
      hadvances.initial.trans hinitial⟩
  exact afterAll_of_answer hstep ⟨h, rfl, rfl⟩ calls

/-- Whatever is asked of a simulation, each entry of its trace is a delay in the location that was
reached before it, or the action of an edge that leaves this location. The initial location and the
targets of the actions are a path along edges that ends in the present location. From there, each
further call adds one such entry and moves to its target, or is rejected and changes nothing. -/
theorem trace_is_path {c : Component} {process : String} {tieBreak : TieBreak}
    (hs : start c process tieBreak = .ok s) (calls : List Call) :
    let t := s.afterAll calls
    (∃ l, c.initialLocation? = some l ∧ t.path.head? = some l.id ∧
      (∀ before entry later, t.trace = before ++ entry :: later →
        c.Allows (reached l.id before) entry)) ∧
      t.path.IsChain c.Joins ∧ t.path.getLast? = some t.location ∧
      ∀ call,
        (∃ u entry, t.answer call = .ok u ∧ t.after call = u ∧ u.trace = t.trace ++ [entry] ∧
          c.Allows t.location entry ∧ u.location = entry.target?.getD t.location) ∨
        (∃ why, t.answer call = .error why) ∧ t.after call = t := by
  obtain ⟨l, hl, -, rfl⟩ := start_eq_ok.mp hs
  obtain ⟨htraced, hcomponent, hinitial⟩ := (traced_of_start hs).afterAll calls
  intro t
  have hc : t.component = c := hcomponent
  have hstart : t.initial = l.id := hinitial
  have hhead : t.path.head? = some l.id := by rw [path, List.head?_cons, hstart]
  have hlast : t.path.getLast? = some t.location := by rw [getLast?_path, htraced.here]
  have hallowed := htraced.allowed
  have hpath := htraced.path
  rw [hc, hstart] at hallowed
  rw [hc] at hpath
  refine ⟨⟨l, hl, hhead, hallowed⟩, hpath, hlast, fun call => ?_⟩
  rcases t.advances_or_same call with ⟨entry, hanswer, hstep⟩ | hrejected
  · exact .inl ⟨_, entry, hanswer, rfl, hstep.trace, hc ▸ hstep.allowed, hstep.location⟩
  · exact .inr hrejected

/-- A lamp is pressed twice, of which the second time is rejected, and goes out. -/
theorem trace_of_pressed_lamp :
    let start := atStart Lamp.component "S" .firstDeclared "Idle"
    let calls := [Call.fire .input "press", .fire .input "press", .fire .output "off"]
    Simulation.start Lamp.component "S" .firstDeclared = .ok start ∧
      (start.afterAll calls).trace =
        [.action "Idle" "Lit" "press?", .action "Lit" "Idle" "off!"] ∧
      (start.afterAll calls).path = ["Idle", "Lit", "Idle"] ∧
      (start.afterAll calls).path.IsChain Lamp.component.Joins ∧
      Lamp.component.Allows "Lit" (.action "Lit" "Idle" "off!") := by
  intro start calls
  have hstart : Simulation.start Lamp.component "S" .firstDeclared = .ok start := rfl
  have htrace : (start.afterAll calls).trace =
      [.action "Idle" "Lit" "press?", .action "Lit" "Idle" "off!"] := rfl
  have hpath : (start.afterAll calls).path = ["Idle", "Lit", "Idle"] := by
    rw [path, htrace]
    rfl
  obtain ⟨⟨l, -, -, hallowed⟩, hchain, -, -⟩ := trace_is_path hstart calls
  have hoff : Lamp.component.Allows "Lit" (.action "Lit" "Idle" "off!") :=
    hallowed [.action "Idle" "Lit" "press?"] _ [] htrace
  exact ⟨hstart, htrace, hpath, hchain, hoff⟩

end Simulation
end TimedMutation
