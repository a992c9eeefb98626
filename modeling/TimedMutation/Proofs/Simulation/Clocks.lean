import TimedMutation.Proofs.Decimal.Nonneg
import TimedMutation.Proofs.Simulation.Firing

/-! The values of clocks along a run. A clock starts at zero and advances with time; an edge that is
taken leaves it as it is or gives it the value of the last assignment to it, whatever that is. -/

namespace TimedMutation
namespace Simulation

variable {s t : Simulation} {call : Call} {name : String}

/-- The edge that a call takes and the simulation after it. -/
def taken? (s : Simulation) : Call → Option (NumberedEdge × Simulation)
  | .delay _ => none
  | .fire direction label => (s.fire direction label).toOption
  | .fireRule rule => (s.fireRule rule).toOption

/-- The value that a call assigns to a name. -/
def given? (s : Simulation) (call : Call) (name : String) : Option Float := do
  let (x, _) ← s.taken? call
  let u ← (Update.ofText x.1.update).toOption
  let a ← u.last? name
  (a.evaluate s.valuation).toOption

theorem given?_eq_some {y : Float} :
    s.given? call name = some y ↔
      ∃ x t u a, s.taken? call = some (x, t) ∧ Update.ofText x.1.update = .ok u ∧
        u.last? name = some a ∧ a.evaluate s.valuation = .ok y := by
  simp [given?, Option.bind_eq_some_iff, toOption_eq_some]

/-- The value that a sequence of calls assigns to a name last. -/
def lastGiven? (s : Simulation) (name : String) : List Call → Option Float
  | [] => none
  | call :: calls => ((s.after call).lastGiven? name calls).or (s.given? call name)

/-- A call that takes an edge is answered with the simulation after that. -/
theorem of_taken?_eq_some {x : NumberedEdge} (h : s.taken? call = some (x, t)) :
    s.answer call = .ok t ∧ s.take x.1 = .ok t := by
  cases call with
  | delay amount => cases h
  | fire direction label =>
    have hfire := toOption_eq_some.mp h
    exact ⟨map_eq_ok.mpr ⟨_, hfire, rfl⟩, (fire_eq_ok.mp hfire).2⟩
  | fireRule rule =>
    have hfire := toOption_eq_some.mp h
    exact ⟨map_eq_ok.mpr ⟨_, hfire, rfl⟩, (fireRule_eq_ok.mp hfire).2⟩

/-- A call that is answered takes time or an edge. -/
theorem taken?_of_answer (h : s.answer call = .ok t) :
    (∃ amount, call = .delay amount ∧ s.delay amount = .ok t) ∨
      ∃ x, s.taken? call = some (x, t) := by
  cases call with
  | delay amount => exact .inl ⟨amount, rfl, h⟩
  | fire direction label =>
    obtain ⟨⟨x, t⟩, hfire, rfl⟩ := map_eq_ok.mp h
    exact .inr ⟨x, toOption_eq_some.mpr hfire⟩
  | fireRule rule =>
    obtain ⟨⟨x, t⟩, hfire, rfl⟩ := map_eq_ok.mp h
    exact .inr ⟨x, toOption_eq_some.mpr hfire⟩

/-- An edge that is taken leaves a clock as it is, or gives it the value of the last assignment to it. -/
theorem clock?_of_taken? {x : NumberedEdge} (h : s.taken? call = some (x, t))
    (hclock : s.component.isClock name = true) :
    ∃ u, Update.ofText x.1.update = .ok u ∧
      ((u.last? name = none ∧ s.given? call name = none ∧ t.clock? name = s.clock? name) ∨
        ∃ a y, u.last? name = some a ∧ a.evaluate s.valuation = .ok y ∧
          s.given? call name = some y ∧ t.clock? name = some y) := by
  obtain ⟨-, -, u, hu, hassigns⟩ := assigns_of_take (of_taken?_eq_some h).2
  refine ⟨u, hu, ?_⟩
  cases hlast : u.last? name with
  | none =>
    have hgiven : s.given? call name = none := by simp [given?, h, hu, hlast, Except.toOption]
    exact .inl ⟨rfl, hgiven, hassigns.clockKept name (.inr hlast)⟩
  | some a =>
    obtain ⟨y, hy, hvalue⟩ := hassigns.clockAssigned name a hclock hlast
    exact .inr ⟨a, y, rfl, hy, given?_eq_some.mpr ⟨x, t, u, a, h, hu, hlast, hy⟩, hvalue⟩

/-- A call moves a clock to the value that it gives it, or on from the value that it had. -/
theorem clock?_after (hclock : s.component.isClock name = true) {v : Float}
    (hv : s.clock? name = some v) (call : Call) :
    ∃ w, (s.after call).clock? name = some w ∧
      (0.0 ≤ (s.given? call name).getD v → 0.0 ≤ w) := by
  unfold after
  cases hanswer : s.answer call with
  | error why =>
    have htaken : s.taken? call = none := by
      by_contra hsome
      obtain ⟨⟨x, t⟩, htaken⟩ := Option.ne_none_iff_exists'.mp hsome
      cases hanswer.symm.trans (of_taken?_eq_some htaken).1
    exact ⟨v, hv, by simp [given?, htaken]⟩
  | ok t =>
    rcases taken?_of_answer hanswer with ⟨amount, rfl, hdelay⟩ | ⟨x, htaken⟩
    · obtain ⟨hfinite, hpositive, -, rfl⟩ := delay_eq_ok.mp hdelay
      have hw : (s.now.clocks.map (· + amount)).get? name = some (v + amount) := by
        rw [Bindings.get?_map, ← clock?, hv, Option.map_some]
      exact ⟨v + amount, hw, fun hbase =>
        Decimal.zero_le_add hbase (Decimal.zero_le_of_finite hfinite hpositive)⟩
    · obtain ⟨u, -, ⟨-, hgiven, hkept⟩ | ⟨a, y, -, -, hgiven, hvalue⟩⟩ :=
        clock?_of_taken? htaken hclock
      · exact ⟨v, hkept.trans hv, by simp [hgiven]⟩
      · exact ⟨y, hvalue, by simp [hgiven]⟩

/-- After a run a clock is at least zero if what was assigned to it last is, or, where nothing was, what
it had before. -/
theorem clock?_afterAll (hclock : s.component.isClock name = true) {v : Float}
    (hv : s.clock? name = some v) (calls : List Call) :
    ∃ w, (s.afterAll calls).clock? name = some w ∧
      (0.0 ≤ (s.lastGiven? name calls).getD v → 0.0 ≤ w) := by
  induction calls generalizing s v with
  | nil => exact ⟨v, hv, id⟩
  | cons call calls ih =>
    obtain ⟨w, hw, hfirst⟩ := clock?_after hclock hv call
    have hsame : (s.after call).component = s.component := component_afterAll s [call]
    obtain ⟨w', hw', hrest⟩ := ih (hsame ▸ hclock) hw
    refine ⟨w', hw', fun hbase => hrest ?_⟩
    rw [lastGiven?] at hbase
    cases hlast : (s.after call).lastGiven? name calls with
    | none => exact hfirst (by simpa [hlast] using hbase)
    | some y => simpa [hlast] using hbase

/-- Every clock starts at zero. -/
theorem clock?_atStart {c : Component} {process initial : String} {tieBreak : TieBreak}
    (hname : name ∈ c.declarations.clocks) :
    (atStart c process tieBreak initial).clock? name = some 0.0 := by
  have hmem : name ∈ (atStart c process tieBreak initial).now.clocks.names := by
    simpa [atStart, Bindings.mem_names_ofList] using hname
  obtain ⟨v, hv⟩ := Option.isSome_iff_exists.mp (Bindings.mem_names.mp hmem)
  obtain ⟨other, -, hzero⟩ := List.mem_map.mp (Bindings.mem_of_get?_ofList hv)
  cases hzero
  exact hv

/-- Wherever a simulation gets, the value of a clock is at least zero unless the last value that was
assigned to it is not. An edge that is taken there leaves a clock as it is, or gives it the value of the
last assignment to it, which for a reset is zero. -/
theorem clocks_of_run {c : Component} {process : String} {tieBreak : TieBreak}
    (hs : start c process tieBreak = .ok s) (calls : List Call)
    (hname : name ∈ c.declarations.clocks) :
    (∃ v, (s.afterAll calls).clock? name = some v ∧
      (0.0 ≤ (s.lastGiven? name calls).getD 0.0 → 0.0 ≤ v)) ∧
    ∀ call x t, (s.afterAll calls).taken? call = some (x, t) →
      ∃ u, Update.ofText x.1.update = .ok u ∧
        ((u.last? name = none ∧ t.clock? name = (s.afterAll calls).clock? name) ∨
          ∃ a y, u.last? name = some a ∧ a.evaluate (s.afterAll calls).valuation = .ok y ∧
            t.clock? name = some y ∧ (a.isReset = true → (y == 0.0) = true)) := by
  obtain ⟨l, -, -, rfl⟩ := start_eq_ok.mp hs
  have hclock : (atStart c process tieBreak l.id).component.isClock name = true := by
    simpa [atStart, Component.isClock] using hname
  constructor
  · exact clock?_afterAll hclock (clock?_atStart hname) calls
  · intro call x t htaken
    obtain ⟨u, hu, ⟨hnone, -, hkept⟩ | ⟨a, y, ha, hy, -, hvalue⟩⟩ :=
      clock?_of_taken? htaken ((component_afterAll _ calls).symm ▸ hclock)
    · exact ⟨u, hu, .inl ⟨hnone, hkept⟩⟩
    · exact ⟨u, hu, .inr ⟨a, y, ha, hy, hvalue, fun hreset => a.zero_of_isReset hreset hy⟩⟩

/-- A press sets the clock of a lamp to its level, and time runs on from there. -/
theorem clock_of_pressed_lamp :
    let lamp := { Lamp.timed with
      declarations := { Lamp.timed.declarations with locals := [⟨"n", 0, 3, 2⟩] } }
    let start := atStart lamp "S" .firstDeclared "Idle"
    let calls := [Call.fire .input "press", Call.delay 1.5]
    Simulation.start lamp "S" .firstDeclared = .ok start ∧ "t" ∈ lamp.declarations.clocks ∧
      start.lastGiven? "t" calls = some 2.0 ∧
      ∃ v, (start.afterAll calls).clock? "t" = some v ∧ 0.0 ≤ v := by
  intro lamp start calls
  have hstart : Simulation.start lamp "S" .firstDeclared = .ok start := rfl
  have hclock : "t" ∈ lamp.declarations.clocks := by decide
  have htake : start.take lamp.edges[0] =
      .ok (start.commit ⟨"Lit", start.now.clocks.insert "t" 2.0, start.now.locals⟩
        (.action "Idle" "Lit" "press?")) :=
    take_eq_ok.mpr ⟨_, _, _, _, _, Lamp.ofText_update, rfl, rfl, rfl, rfl, rfl⟩
  have htaken : start.taken? (.fire .input "press") = some ((lamp.edges[0], 0), _) :=
    toOption_eq_some.mpr (fire_eq_ok.mpr ⟨rfl, htake⟩)
  have hgiven : start.given? (.fire .input "press") "t" = some 2.0 :=
    given?_eq_some.mpr ⟨_, _, _, _, htaken, Lamp.ofText_update, rfl, rfl⟩
  have hlast : start.lastGiven? "t" calls = some 2.0 := by
    rw [lastGiven?, hgiven]
    rfl
  obtain ⟨⟨v, hv, hbase⟩, -⟩ := clocks_of_run hstart calls hclock
  rw [hlast] at hbase
  exact ⟨hstart, hclock, hlast, v, hv, hbase (by decide)⟩

/-- A local below zero takes a clock there: in a run of a validated component the value of a clock can
become negative, by an edge that neither keeps nor resets the clock. -/
theorem clock_set_below_zero :
    let lamp := { Lamp.timed with
      declarations := { Lamp.timed.declarations with locals := [⟨"n", -1, 3, -1⟩] } }
    let start := atStart lamp "S" .firstDeclared "Idle"
    let next := start.afterAll [.fire .input "press"]
    lamp.validate = .ok () ∧ Simulation.start lamp "S" .firstDeclared = .ok start ∧
      (∃ x, start.fire .input "press" = .ok (x, next)) ∧
      start.clock? "t" = some 0.0 ∧ next.clock? "t" = some (-1.0) ∧ ¬ (0.0 : Float) ≤ -1.0 := by
  intro lamp start next
  let set := start.commit ⟨"Lit", start.now.clocks.insert "t" (-1.0), start.now.locals⟩
    (.action "Idle" "Lit" "press?")
  have htake : start.take lamp.edges[0] = .ok set :=
    take_eq_ok.mpr ⟨_, _, _, _, _, Lamp.ofText_update, rfl, rfl, rfl, rfl, rfl⟩
  have hfire : start.fire .input "press" = .ok ((lamp.edges[0], 0), set) :=
    fire_eq_ok.mpr ⟨rfl, htake⟩
  have hnext : next = set := by
    change start.after (.fire .input "press") = set
    rw [after, answer, hfire]
    rfl
  rw [hnext]
  exact ⟨rfl, rfl, ⟨_, hfire⟩, rfl, rfl, by decide⟩

end Simulation
end TimedMutation
