import TimedMutation.Proofs.Outcome
import TimedMutation.Simulation.Step

/-! What each step of a simulation does when it is taken, and which edges it can choose. Later
proofs cite these laws and do not open the steps. -/

namespace TimedMutation
namespace Simulation

variable {s t : Simulation}

@[simp] theorem commit_component (s : Simulation) (next : Snapshot) (entry : TraceEntry) :
    (s.commit next entry).component = s.component := rfl

@[simp] theorem commit_now (s : Simulation) (next : Snapshot) (entry : TraceEntry) :
    (s.commit next entry).now = next := rfl

@[simp] theorem commit_trace (s : Simulation) (next : Snapshot) (entry : TraceEntry) :
    (s.commit next entry).trace = s.trace ++ [entry] := by
  simp [trace, commit]

/-- A simulation starts in the first initial location, whose invariant holds there. -/
theorem start_eq_ok {c : Component} {process : String} {tieBreak : TieBreak} :
    start c process tieBreak = .ok s ↔
      ∃ l, c.initialLocation? = some l ∧
        holds l.invariant (atStart c process tieBreak l.id).valuation = .ok true ∧
        atStart c process tieBreak l.id = s := by
  simp only [start]
  cases c.initialLocation? with
  | none => simp
  | some l =>
    simp only [bind_eq_ok, inSimulation_eq_ok, Option.some.injEq, exists_eq_left']
    constructor
    · rintro ⟨held, hheld, h⟩
      cases held with
      | false => simp at h
      | true => exact ⟨hheld, pure_eq_ok.mp h⟩
    · rintro ⟨hheld, rfl⟩
      exact ⟨true, hheld, rfl⟩

theorem enter_eq_ok {next : Snapshot} {invariant : String} {entry : TraceEntry} :
    s.enter next invariant entry = .ok t ↔
      holds invariant next.valuation = .ok true ∧ s.commit next entry = t := by
  simp only [enter, bind_eq_ok, inSimulation_eq_ok]
  constructor
  · rintro ⟨held, hheld, h⟩
    cases held with
    | false => simp [fault] at h
    | true => exact ⟨hheld, pure_eq_ok.mp h⟩
  · rintro ⟨hheld, rfl⟩
    exact ⟨true, hheld, rfl⟩

theorem delay_eq_ok {amount : Float} :
    s.delay amount = .ok t ↔
      amount.isFinite = true ∧ ¬ amount < 0.0 ∧
        holds s.currentInvariant
          ({ s.now with clocks := s.now.clocks.map (· + amount) } : Snapshot).valuation = .ok true ∧
        s.commit { s.now with clocks := s.now.clocks.map (· + amount) }
          (.delay s.location amount) = t := by
  simp only [delay]
  split
  · rename_i hbad
    simp only [Bool.or_eq_true, Bool.not_eq_true', decide_eq_true_eq] at hbad
    simp only [fault, reduceCtorEq, false_iff]
    rintro ⟨hfinite, hnonneg, -⟩
    rcases hbad with hbad | hbad
    · simp [hfinite] at hbad
    · exact hnonneg hbad
  · rename_i hgood
    have hf : amount.isFinite = true ∧ ¬ amount < 0.0 := by simpa using hgood
    rw [enter_eq_ok]
    exact ⟨fun h => ⟨hf.1, hf.2, h⟩, fun h => h.2.2⟩

/-- The edges that are enabled are those that are wanted and whose guards hold. -/
theorem mem_enabledAmong {v : Valuation} {wanted : Edge → Except ExprError Bool}
    {edges found : List NumberedEdge} (h : enabledAmong v wanted edges = .ok found)
    {x : NumberedEdge} (hx : x ∈ found) :
    x ∈ edges ∧ wanted x.1 = .ok true ∧ TimedMutation.holds x.1.guard v = .ok true := by
  induction edges generalizing found with
  | nil =>
    simp only [enabledAmong, Except.ok.injEq] at h
    simp [← h] at hx
  | cons y edges ih =>
    obtain ⟨e, index⟩ := y
    simp only [enabledAmong] at h
    obtain ⟨asked, hasked, h⟩ := bind_eq_ok.mp h
    cases asked with
    | false =>
      simp only [Bool.false_eq_true, if_false, pure_bind] at h
      obtain ⟨others, hothers, h⟩ := bind_eq_ok.mp h
      have hfound : others = found := pure_eq_ok.mp h
      have hx' := ih hothers (hfound ▸ hx)
      exact ⟨List.mem_cons_of_mem _ hx'.1, hx'.2⟩
    | true =>
      simp only [if_true] at h
      obtain ⟨enabled, henabled, h⟩ := bind_eq_ok.mp h
      obtain ⟨others, hothers, h⟩ := bind_eq_ok.mp h
      have hfound := pure_eq_ok.mp h
      rw [← hfound] at hx
      cases enabled with
      | false =>
        have hx' := ih hothers (by simpa using hx)
        exact ⟨List.mem_cons_of_mem _ hx'.1, hx'.2⟩
      | true =>
        simp only [if_true] at hx
        rcases List.mem_cons.mp hx with rfl | hx
        · exact ⟨by simp, hasked, henabled⟩
        · have hx' := ih hothers hx
          exact ⟨List.mem_cons_of_mem _ hx'.1, hx'.2⟩

/-- Where it is known which edges are wanted and the guards of these hold, they are all enabled. -/
theorem enabledAmong_of_holds {v : Valuation} {wanted : Edge → Except ExprError Bool}
    {edges : List NumberedEdge} (chosen : Edge → Bool)
    (hwanted : ∀ x ∈ edges, wanted x.1 = .ok (chosen x.1))
    (hguard : ∀ x ∈ edges, chosen x.1 = true → TimedMutation.holds x.1.guard v = .ok true) :
    enabledAmong v wanted edges = .ok (edges.filter fun x => chosen x.1) := by
  induction edges with
  | nil => rfl
  | cons x edges ih =>
    have hothers := ih (fun y hy => hwanted y (List.mem_cons_of_mem _ hy))
      (fun y hy => hguard y (List.mem_cons_of_mem _ hy))
    have hx := hwanted x List.mem_cons_self
    cases hchosen : chosen x.1 with
    | false =>
      simp only [enabledAmong, hx, hchosen, bind_ok, hothers, List.filter_cons, Bool.false_eq_true,
        if_false, pure_bind]
      rfl
    | true =>
      have hholds := hguard x List.mem_cons_self hchosen
      simp only [enabledAmong, hx, hchosen, bind_ok, hothers, hholds, List.filter_cons, if_true]
      rfl

theorem mem_leaving {x : NumberedEdge} (h : x ∈ s.leaving) :
    x.1 ∈ s.component.edges ∧ x.1.source = s.location := by
  simp only [leaving, List.mem_filter, beq_iff_eq] at h
  exact ⟨List.fst_mem_of_mem_zipIdx h.1, h.2⟩

/-- The selected edge leaves the location, is wanted and is enabled. -/
theorem of_select_eq_some {wanted : Edge → Except ExprError Bool} {x : NumberedEdge}
    (h : s.select wanted = .ok (some x)) :
    x ∈ s.leaving ∧ wanted x.1 = .ok true ∧
      TimedMutation.holds x.1.guard s.valuation = .ok true := by
  simp only [select, inSimulation_eq_ok, map_eq_ok] at h
  obtain ⟨found, hfound, hpick⟩ := h
  exact mem_enabledAmong hfound (TieBreak.mem_of_pick hpick)

theorem of_enabledEdge?_eq_some {direction : Direction} {label : String} {x : NumberedEdge}
    (h : s.enabledEdge? direction label = .ok (some x)) :
    x ∈ s.leaving ∧ x.1.direction = direction ∧ x.1.sync = label := by
  have hx := of_select_eq_some h
  simp only [Except.ok.injEq, Bool.and_eq_true, beq_iff_eq] at hx
  exact ⟨hx.1, hx.2.1⟩

theorem of_peekRule?_eq_some {rule : ActionRule} {x : NumberedEdge}
    (h : s.peekRule? rule = .ok (some x)) : x ∈ s.leaving ∧ fits rule x.1 = true := by
  simp only [peekRule?, bind_eq_ok] at h
  obtain ⟨required, -, h⟩ := h
  have hx := of_select_eq_some h
  refine ⟨hx.1, ?_⟩
  by_contra hfits
  simp [hfits] at hx

/-- An edge that fits a rule has the action that the rule names. -/
theorem action_of_fits {rule : ActionRule} {e : Edge} (h : fits rule e = true) {label : String}
    {direction : Direction} (hsync : rule.sync = some (label, direction)) :
    e.sync = label ∧ e.direction = direction := by
  simp only [fits, hsync, Bool.and_eq_true, beq_iff_eq] at h
  exact h.2

/-- An assignment sets a clock, or else a local to a value within its range. -/
theorem assign_eq_ok {clocks clocks' : Bindings Float} {locals locals' : Bindings Int}
    {target : String} {value : Float} :
    s.assign clocks locals target value = .ok (clocks', locals') ↔
      (s.component.isClock target = true ∧ clocks.insert target value = clocks' ∧
        locals = locals') ∨
      (s.component.isClock target = false ∧ ∃ l, s.component.local? target = some l ∧
        l.contains (Decimal.toWord64 value) = true ∧ clocks = clocks' ∧
        locals.insert target (Decimal.toWord64 value) = locals') := by
  unfold assign
  cases s.component.isClock target with
  | true => simp
  | false =>
    cases s.component.local? target with
    | none => simp [fault]
    | some l =>
      cases hcontains : l.contains (Decimal.toWord64 value) with
      | true => simp [hcontains]
      | false => simp [hcontains, fault]

/-- Taking an edge evaluates its update, assigns, and enters the target. -/
theorem take_eq_ok {e : Edge} :
    s.take e = .ok t ↔
      ∃ u values clocks locals target, Update.ofText e.update = .ok u ∧
        u.evaluate s.valuation = .ok values ∧
        s.assignAll s.now.clocks s.now.locals values = .ok (clocks, locals) ∧
        s.component.location? e.target = some target ∧
        holds target.invariant (⟨e.target, clocks, locals⟩ : Snapshot).valuation = .ok true ∧
        s.commit ⟨e.target, clocks, locals⟩ (.action e.source e.target e.action) = t := by
  simp only [take, bind_eq_ok, inSimulation_eq_ok, Prod.exists]
  constructor
  · rintro ⟨values, ⟨u, hu, hvalues⟩, clocks, locals, hassign, h⟩
    cases htarget : s.component.location? e.target with
    | none => simp [htarget, fault] at h
    | some target =>
      simp only [htarget, enter_eq_ok] at h
      exact ⟨u, values, clocks, locals, target, hu, hvalues, hassign, rfl, h⟩
  · rintro ⟨u, values, clocks, locals, target, hu, hvalues, hassign, htarget, h⟩
    refine ⟨values, ⟨u, hu, hvalues⟩, clocks, locals, hassign, ?_⟩
    simpa only [htarget, enter_eq_ok] using h

theorem takeSelected_eq_ok {action : String} {selected : Option NumberedEdge} {x : NumberedEdge} :
    s.takeSelected action selected = .ok (x, t) ↔ selected = some x ∧ s.take x.1 = .ok t := by
  cases selected with
  | none => simp [takeSelected, fault]
  | some edge =>
    simp only [takeSelected, map_eq_ok, Prod.mk.injEq, Option.some.injEq]
    constructor
    · rintro ⟨next, htake, rfl, rfl⟩
      exact ⟨rfl, htake⟩
    · rintro ⟨rfl, htake⟩
      exact ⟨t, htake, rfl, rfl⟩

theorem fire_eq_ok {direction : Direction} {label : String} {x : NumberedEdge} :
    s.fire direction label = .ok (x, t) ↔
      s.enabledEdge? direction label = .ok (some x) ∧ s.take x.1 = .ok t := by
  simp only [fire, bind_eq_ok, takeSelected_eq_ok]
  constructor
  · rintro ⟨selected, hselected, rfl, htake⟩
    exact ⟨hselected, htake⟩
  · rintro ⟨hselected, htake⟩
    exact ⟨some x, hselected, rfl, htake⟩

theorem fireRule_eq_ok {rule : ActionRule} {x : NumberedEdge} :
    s.fireRule rule = .ok (x, t) ↔ s.peekRule? rule = .ok (some x) ∧ s.take x.1 = .ok t := by
  simp only [fireRule, bind_eq_ok, takeSelected_eq_ok]
  constructor
  · rintro ⟨selected, hselected, rfl, htake⟩
    exact ⟨hselected, htake⟩
  · rintro ⟨hselected, htake⟩
    exact ⟨some x, hselected, rfl, htake⟩

/-- Taking an edge adds one entry to the trace, with the action of the edge. -/
theorem trace_of_take {e : Edge} (h : s.take e = .ok t) :
    t.trace = s.trace ++ [.action e.source e.target e.action] := by
  obtain ⟨-, -, clocks, locals, -, -, -, -, -, -, rfl⟩ := take_eq_ok.mp h
  simp

end Simulation
end TimedMutation
