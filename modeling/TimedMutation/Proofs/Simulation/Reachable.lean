import TimedMutation.Proofs.Automaton.WellFormed
import TimedMutation.Proofs.Bindings
import TimedMutation.Proofs.Simulation.Calls

/-! The states of a simulation of a well-formed component. Whatever is asked of it, it stays in a
declared location whose invariant holds, with a value for exactly what is declared. -/

namespace TimedMutation

namespace Simulation

variable {s t : Simulation}

/-- There is a value for exactly the declared clocks and locals, and that of a local lies in the
range of a declaration of its name. -/
structure Declared (c : Component) (clocks : Bindings Float) (locals : Bindings Int) : Prop where
  clockNames : ∀ x, x ∈ clocks.names ↔ x ∈ c.declarations.clocks
  localNames : ∀ x, x ∈ locals.names ↔ x ∈ c.declarations.locals.map (·.name)
  ranges : ∀ x n, locals.get? x = some n →
    ∃ l ∈ c.declarations.locals, l.name = x ∧ l.contains n = true

/-- What holds of every state of a simulation of a well-formed component. -/
structure Sound (s : Simulation) : Prop where
  declared : Declared s.component s.now.clocks s.now.locals
  located : ∃ l, s.component.location? s.location = some l ∧
    holds l.invariant s.valuation = .ok true

theorem Declared.insert_clock {c : Component} {clocks : Bindings Float} {locals : Bindings Int}
    (h : Declared c clocks locals) {x : String} (hx : x ∈ c.declarations.clocks) (value : Float) :
    Declared c (clocks.insert x value) locals where
  clockNames y := by
    rw [Bindings.mem_names_insert, h.clockNames]
    constructor
    · rintro (rfl | hy)
      · exact hx
      · exact hy
    · exact .inr
  localNames := h.localNames
  ranges := h.ranges

theorem Declared.insert_local {c : Component} {clocks : Bindings Float} {locals : Bindings Int}
    (h : Declared c clocks locals) {l : Local} (hl : l ∈ c.declarations.locals) {n : Int}
    (hn : l.contains n = true) : Declared c clocks (locals.insert l.name n) where
  clockNames := h.clockNames
  localNames y := by
    rw [Bindings.mem_names_insert, h.localNames]
    constructor
    · rintro (rfl | hy)
      · exact List.mem_map_of_mem hl
      · exact hy
    · exact .inr
  ranges y m hm := by
    rw [Bindings.get?_insert] at hm
    split at hm
    · rename_i hy
      have hnm : n = m := Option.some.inj hm
      exact ⟨l, hl, hy.symm, hnm ▸ hn⟩
    · exact h.ranges y m hm

theorem Declared.assign {clocks clocks' : Bindings Float} {locals locals' : Bindings Int}
    (h : Declared s.component clocks locals) {target : String} {value : Float}
    (hassign : s.assign clocks locals target value = .ok (clocks', locals')) :
    Declared s.component clocks' locals' := by
  rcases assign_eq_ok.mp hassign with ⟨hclock, rfl, rfl⟩ | ⟨-, l, hl, hcontains, rfl, rfl⟩
  · have htarget : target ∈ s.component.declarations.clocks := by
      simpa [Component.isClock] using hclock
    exact h.insert_clock htarget value
  · have hname : l.name = target := by simpa using List.find?_some hl
    exact hname ▸ h.insert_local (List.mem_of_find?_eq_some hl) hcontains

theorem Declared.assignAll {clocks clocks' : Bindings Float} {locals locals' : Bindings Int}
    (h : Declared s.component clocks locals) {values : List (String × Float)}
    (hassign : s.assignAll clocks locals values = .ok (clocks', locals')) :
    Declared s.component clocks' locals' := by
  induction values generalizing clocks locals with
  | nil =>
    simp only [Simulation.assignAll, Except.ok.injEq, Prod.mk.injEq] at hassign
    exact hassign.1 ▸ hassign.2 ▸ h
  | cons v values ih =>
    simp only [Simulation.assignAll] at hassign
    obtain ⟨⟨clocks₁, locals₁⟩, hfirst, hrest⟩ := bind_eq_ok.mp hassign
    exact ih (h.assign hfirst) hrest

theorem declared_atStart {c : Component} (hc : c.WellFormed) (process : String)
    (tieBreak : TieBreak) (initial : String) :
    Declared c (atStart c process tieBreak initial).now.clocks
      (atStart c process tieBreak initial).now.locals where
  clockNames x := by simp [atStart, Bindings.mem_names_ofList]
  localNames x := by simp [atStart, Bindings.mem_names_ofList]
  ranges x n hn := by
    have hmem := Bindings.mem_of_get?_ofList hn
    obtain ⟨l, hl, heq⟩ := List.mem_map.mp hmem
    cases heq
    exact ⟨l, hl, rfl, hc.ranges l hl⟩

theorem sound_of_start {c : Component} (hc : c.WellFormed) {process : String} {tieBreak : TieBreak}
    (h : start c process tieBreak = .ok s) : s.Sound ∧ s.component = c := by
  obtain ⟨l, hl, hholds, rfl⟩ := start_eq_ok.mp h
  have hlocation : c.location? l.id = some l :=
    hc.location?_eq_some_iff.mpr ⟨List.mem_of_find?_eq_some hl, rfl⟩
  exact ⟨⟨declared_atStart hc process tieBreak l.id, l, hlocation, hholds⟩, rfl⟩

/-- A step leads to no state without the declared values. -/
theorem Sound.candidate (h : s.Sound) {next : Snapshot} (hnext : s.Candidate next) :
    Declared s.component next.clocks next.locals := by
  cases hnext with
  | delay amount =>
    exact ⟨fun x => by simpa using h.declared.clockNames x, h.declared.localNames, h.declared.ranges⟩
  | take _ hassign => exact h.declared.assignAll hassign

theorem Sound.delay (h : s.Sound) {amount : Float} (hdelay : s.delay amount = .ok t) : t.Sound := by
  obtain ⟨-, -, hholds, rfl⟩ := delay_eq_ok.mp hdelay
  obtain ⟨l, hl, -⟩ := h.located
  have hinvariant : s.currentInvariant = l.invariant := by simp [currentInvariant, hl]
  exact ⟨h.candidate (.delay amount), l, hl, hinvariant ▸ hholds⟩

theorem Sound.take (h : s.Sound) {e : Edge} (htake : s.take e = .ok t) : t.Sound := by
  obtain ⟨u, values, clocks, locals, l, -, -, hassign, hl, hholds, rfl⟩ := take_eq_ok.mp htake
  exact ⟨h.declared.assignAll hassign, l, hl, hholds⟩

theorem Sound.answer (h : s.Sound) {call : Call} (hanswer : s.answer call = .ok t) : t.Sound := by
  rcases answer_eq_ok hanswer with ⟨amount, hdelay⟩ | ⟨x, -, htake⟩
  · exact h.delay hdelay
  · exact h.take htake

theorem Sound.afterAll (h : s.Sound) (calls : List Call) :
    (s.afterAll calls).Sound ∧ (s.afterAll calls).component = s.component :=
  ⟨afterAll_of_answer (fun h => h.answer) h calls, component_afterAll s calls⟩

theorem Sound.after (h : s.Sound) (call : Call) :
    (s.after call).Sound ∧ (s.after call).component = s.component := h.afterAll [call]

/-! ### Known targets -/

/-- The computation does not end at an edge whose target is unknown. -/
def KnowsTarget {α : Type} (r : Except SimulationError α) : Prop :=
  ∀ process id, r ≠ .error (.step process (.model (.unknownLocation id)))

/-- Only an edge into nowhere is told to target an unknown location. -/
theorem knowsTarget_answer (hc : s.component.WellFormed) (call : Call) :
    KnowsTarget (s.answer call) := by
  intro process id h
  cases rejects_of_answer h with
  | unknown hx hnowhere =>
    have htarget := Component.isSome_location? (hc.ends _ (mem_leaving hx).1).2
    simp [hnowhere] at htarget

/-- Whatever is asked of a simulation of a validated component, it is in a declared location whose
invariant holds, it has a value for exactly the declared clocks and locals, each local is in a range
declared for it, and no edge leads it to an unknown location. -/
theorem state_of_run {c : Component} (hc : c.validate = .ok ()) {process : String}
    {tieBreak : TieBreak} (hs : start c process tieBreak = .ok s) (calls : List Call) :
    (∃ l ∈ c.locations, l.id = (s.afterAll calls).location) ∧
    (∀ l ∈ c.locations, l.id = (s.afterAll calls).location →
      holds l.invariant (s.afterAll calls).valuation = .ok true) ∧
    (∀ x, x ∈ (s.afterAll calls).now.clocks.names ↔ x ∈ c.declarations.clocks) ∧
    (∀ x, x ∈ (s.afterAll calls).now.locals.names ↔
      ∃ l ∈ c.declarations.locals, l.name = x) ∧
    (∀ x n, (s.afterAll calls).local? x = some n →
      ∃ l ∈ c.declarations.locals, l.name = x ∧ l.lower ≤ n ∧ n ≤ l.upper) ∧
    ∀ call process id, (s.afterAll calls).answer call ≠
      .error (.step process (.model (.unknownLocation id))) := by
  have hwell := Component.validate_eq_ok_iff.mp hc
  obtain ⟨hstart, hcomponent⟩ := sound_of_start hwell hs
  obtain ⟨hsound, hsame⟩ := hstart.afterAll calls
  rw [hcomponent] at hsame
  obtain ⟨l, hl, hholds⟩ := hsound.located
  rw [hsame] at hl
  obtain ⟨hmem, hid⟩ := hwell.location?_eq_some_iff.mp hl
  have hdeclared := hsound.declared
  rw [hsame] at hdeclared
  refine ⟨⟨l, hmem, hid⟩, ?_, hdeclared.clockNames, ?_, ?_, ?_⟩
  · intro l' hmem' hid'
    have hl' := hwell.location?_eq_some_iff.mpr ⟨hmem', hid'⟩
    rw [hl] at hl'
    exact Option.some.inj hl' ▸ hholds
  · intro x
    simpa using hdeclared.localNames x
  · intro x n hn
    obtain ⟨d, hd, hname, hcontains⟩ := hdeclared.ranges x n hn
    simp only [Local.contains, Bool.and_eq_true, decide_eq_true_eq] at hcontains
    exact ⟨d, hd, hname, hcontains⟩
  · intro call
    exact knowsTarget_answer (hsame ▸ hwell) call

/-- A lamp that keeps the time and a level has both after two presses, the second of which is
rejected. -/
theorem state_of_pressed_lamp :
    let lamp := { Lamp.component with
      declarations := { Lamp.component.declarations with
        clocks := ["time"], locals := [.fromLower "level" 0 3] } }
    let start := atStart lamp "S" .firstDeclared "Idle"
    let presses := [Call.fire .input "press", Call.fire .input "press"]
    lamp.validate = .ok () ∧ Simulation.start lamp "S" .firstDeclared = .ok start ∧
      (start.afterAll presses).location = "Lit" ∧
      (∀ x, x ∈ (start.afterAll presses).now.clocks.names ↔ x ∈ ["time"]) ∧
      ∀ n, (start.afterAll presses).local? "level" = some n → 0 ≤ n ∧ n ≤ 3 := by
  intro lamp start presses
  have hvalid : lamp.validate = .ok () := rfl
  have hstart : Simulation.start lamp "S" .firstDeclared = .ok start := rfl
  obtain ⟨-, -, hclocks, -, hranges, -⟩ := state_of_run hvalid hstart presses
  refine ⟨hvalid, hstart, rfl, hclocks, fun n hn => ?_⟩
  obtain ⟨l, hl, -, hrange⟩ := hranges "level" n hn
  cases List.mem_singleton.mp hl
  exact hrange

end Simulation
end TimedMutation
