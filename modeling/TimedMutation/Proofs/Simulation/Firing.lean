import TimedMutation.Proofs.Bindings
import TimedMutation.Proofs.Expr.Spacing
import TimedMutation.Proofs.Simulation.Progress

/-! Firing: which edge wins among those that are enabled, and the values that a step through its update
leaves behind. -/

namespace TimedMutation

/-- Whether the policy lets place `i` win over place `j`. -/
def TieBreak.Prefers : TieBreak → ℕ → ℕ → Prop
  | firstDeclared, i, j => i ≤ j
  | lastDeclared, i, j => j ≤ i

/-- The winner among candidates in ascending places is preferred to all of them. -/
theorem TieBreak.prefers_of_pick {t : TieBreak} {candidates : List NumberedEdge} {x : NumberedEdge}
    (hascending : candidates.Pairwise fun y z => y.2 < z.2) (h : t.pick candidates = some x)
    {y : NumberedEdge} (hy : y ∈ candidates) : t.Prefers x.2 y.2 := by
  cases t with
  | firstDeclared =>
    obtain ⟨rest, rfl⟩ := List.head?_eq_some_iff.mp h
    rcases List.mem_cons.mp hy with rfl | hy
    · exact le_refl y.2
    · exact le_of_lt (List.rel_of_pairwise_cons hascending hy)
  | lastDeclared =>
    obtain ⟨rest, rfl⟩ := List.getLast?_eq_some_iff.mp h
    rcases List.mem_append.mp hy with hy | hy
    · exact le_of_lt ((List.pairwise_append.mp hascending).2.2 y hy x List.mem_cons_self)
    · cases List.mem_singleton.mp hy
      exact le_refl x.2

/-! ### The assignment that counts -/

/-- The last assignment to a name. -/
def Update.last? (u : Update) (name : String) : Option Assignment :=
  u.assignments.reverse.find? fun a => a.target == name

/-- The value that is put last under a name is that of the last assignment to it. -/
theorem Update.lookup_of_evaluate {u : Update} {v : Valuation} {values : List (String × Float)}
    (h : u.evaluate v = .ok values) (name : String) :
    match u.last? name with
    | some a => ∃ x, a.evaluate v = .ok x ∧ values.reverse.lookup name = some x
    | none => values.reverse.lookup name = none := by
  have hvalues := List.rel_reverse (forall₂_of_mapM h)
  rw [last?]
  generalize u.assignments.reverse = assignments at hvalues ⊢
  generalize values.reverse = last at hvalues ⊢
  clear h
  induction hvalues with
  | nil => rfl
  | @cons a value rest values hfirst _ ih =>
    obtain ⟨x, hx, hvalue⟩ := bind_eq_ok.mp hfirst
    cases pure_eq_ok.mp hvalue
    by_cases hname : a.target = name
    · simpa [hname] using hx
    · simpa [hname, List.lookup_cons, beq_false_of_ne (Ne.symm hname)] using ih

/-! ### The winning edge -/

/-- Whether the guard of an edge is decided and holds. -/
def Edge.isEnabled (e : Edge) (v : Valuation) : Bool := (holds e.guard v).toOption.getD false

theorem Edge.isEnabled_iff {e : Edge} {v : Valuation} :
    e.isEnabled v = true ↔ holds e.guard v = .ok true := by
  unfold isEnabled
  cases holds e.guard v <;> simp [Except.toOption]

/-- Two assignments that exchange two levels. -/
theorem Lamp.ofText_exchange : Update.ofText "a=b, b=a" =
    .ok ⟨[⟨"a=b", "a", "b", .var "b"⟩, ⟨"b=a", "b", "a", .var "a"⟩]⟩ := by
  have ha : Expr.ofText "a" = .ok (.var "a") :=
    Expr.ofText_eq_ok.mpr ⟨_, .of_spells (.name rfl rfl), Expr.derives_of_ofTokens rfl⟩
  have hb : Expr.ofText "b" = .ok (.var "b") :=
    Expr.ofText_eq_ok.mpr ⟨_, .of_spells (.name rfl rfl), Expr.derives_of_ofTokens rfl⟩
  have hfirst : Assignment.ofText "a=b" = .ok ⟨"a=b", "a", "b", .var "b"⟩ :=
    Assignment.ofText_of_cut rfl rfl (by decide) rfl rfl hb
  have hsecond : Assignment.ofText "b=a" = .ok ⟨"b=a", "b", "a", .var "a"⟩ :=
    Assignment.ofText_of_cut rfl rfl (by decide) rfl rfl ha
  refine Update.ofText_of_parts rfl (by decide +kernel : _ = ["a=b", "b=a"]) ?_
  simp only [List.mapM_cons, hfirst, hsecond]
  rfl

namespace Simulation

variable {s t : Simulation} {direction : Direction} {label : String}

/-- The enabled edges are found if every guard that is asked for is decided; they are those whose guards
hold, in their order. -/
theorem enabledAmong_eq_ok {v : Valuation} {chosen : Edge → Bool} {edges found : List NumberedEdge} :
    enabledAmong v (fun e => .ok (chosen e)) edges = .ok found ↔
      (∀ x ∈ edges, chosen x.1 = true → ∃ held, TimedMutation.holds x.1.guard v = .ok held) ∧
        (edges.filter fun x => chosen x.1 && x.1.isEnabled v) = found := by
  induction edges generalizing found with
  | nil => simp [enabledAmong]
  | cons x edges ih =>
    obtain ⟨e, index⟩ := x
    simp only [enabledAmong, bind_ok, List.forall_mem_cons, List.filter_cons]
    cases hchosen : chosen e with
    | false =>
      simp only [Bool.false_eq_true, if_false, pure_bind, Bool.false_and, false_implies, true_and]
      rw [← ih]
      cases enabledAmong v (fun e => .ok (chosen e)) edges <;> simp [pure, Except.pure]
    | true =>
      simp only [if_true, true_implies, Bool.true_and]
      cases hheld : TimedMutation.holds e.guard v with
      | error why => simp
      | ok held =>
        have henabled : e.isEnabled v = held := by simp [Edge.isEnabled, hheld, Except.toOption]
        simp only [bind_ok, henabled, bind_eq_ok, pure_eq_ok]
        constructor
        · rintro ⟨others, hothers, rfl⟩
          obtain ⟨hdecided, rfl⟩ := ih.mp hothers
          exact ⟨⟨⟨held, rfl⟩, hdecided⟩, rfl⟩
        · rintro ⟨⟨-, hdecided⟩, rfl⟩
          exact ⟨_, ih.mpr ⟨hdecided, rfl⟩, rfl⟩

/-- The edges that leave the location with an action, in order of declaration. -/
def offered (s : Simulation) (direction : Direction) (label : String) : List NumberedEdge :=
  s.leaving.filter fun x => x.1.direction == direction && x.1.sync == label

theorem offered_ascending (s : Simulation) (direction : Direction) (label : String) :
    (s.offered direction label).Pairwise fun x y => x.2 < y.2 := by
  have hplaces : s.component.edges.zipIdx.Pairwise fun x y => x.2 < y.2 := by
    rw [← List.pairwise_map, List.zipIdx_map_snd]
    exact List.pairwise_lt_range'
  exact (hplaces.filter _).filter _

/-- An edge can be selected if the guard of every edge with the action is decided; the winner of those
whose guards hold is. -/
theorem enabledEdge?_eq_ok {selected : Option NumberedEdge} :
    s.enabledEdge? direction label = .ok selected ↔
      (∀ x ∈ s.offered direction label,
        ∃ held, TimedMutation.holds x.1.guard s.valuation = .ok held) ∧
      s.tieBreak.pick ((s.offered direction label).filter fun x => x.1.isEnabled s.valuation) =
        selected := by
  simp only [enabledEdge?, select, inSimulation_eq_ok, map_eq_ok, enabledAmong_eq_ok, offered,
    List.mem_filter, List.filter_filter, and_imp, Bool.and_comm (Edge.isEnabled _ _)]
  constructor
  · rintro ⟨found, ⟨hdecided, rfl⟩, hpick⟩
    exact ⟨hdecided, hpick⟩
  · rintro ⟨hdecided, hpick⟩
    exact ⟨_, ⟨hdecided, rfl⟩, hpick⟩

/-- There is no edge to fire exactly if every guard of an edge with the action is decided and none
holds. -/
theorem enabledEdge?_eq_none :
    s.enabledEdge? direction label = .ok none ↔
      ∀ x ∈ s.offered direction label,
        TimedMutation.holds x.1.guard s.valuation = .ok false := by
  rw [enabledEdge?_eq_ok, TieBreak.pick_eq_none, List.filter_eq_nil_iff, ← forall₂_and]
  refine forall₂_congr fun x hx => ?_
  rw [Edge.isEnabled_iff]
  cases TimedMutation.holds x.1.guard s.valuation with
  | error why => simp
  | ok held => cases held <;> simp

/-- The edge to fire has the action, is enabled, and is preferred to all other such edges. -/
theorem enabledEdge?_eq_some {x : NumberedEdge}
    (h : s.enabledEdge? direction label = .ok (some x)) :
    x ∈ s.offered direction label ∧ TimedMutation.holds x.1.guard s.valuation = .ok true ∧
      ∀ y ∈ s.offered direction label, TimedMutation.holds y.1.guard s.valuation = .ok true →
        s.tieBreak.Prefers x.2 y.2 := by
  obtain ⟨-, hpick⟩ := enabledEdge?_eq_ok.mp h
  obtain ⟨hx, henabled⟩ := List.mem_filter.mp (TieBreak.mem_of_pick hpick)
  refine ⟨hx, Edge.isEnabled_iff.mp henabled, fun y hy hholds => ?_⟩
  have hascending := (s.offered_ascending direction label).filter fun x => x.1.isEnabled s.valuation
  exact TieBreak.prefers_of_pick hascending hpick
    (List.mem_filter.mpr ⟨hy, Edge.isEnabled_iff.mpr hholds⟩)

/-- Taking an edge is not rejected for want of an edge. -/
theorem take_ne_noEdge {e : Edge} (process location action : String) :
    s.take e ≠ .error (.step process (.noEdge location action)) := by
  intro h
  rcases bind_eq_error.mp h with hvalues | ⟨values, -, h⟩
  · obtain ⟨why, -, hwhy⟩ := inSimulation_eq_error.mp hvalues
    cases hwhy
  · rcases bind_eq_error.mp h with hassign | ⟨⟨clocks, locals⟩, -, h⟩
    · obtain ⟨value, -, clocks, locals, hassign⟩ := assignAll_eq_error hassign
      rcases assign_eq_error hassign with ⟨n, hwhy⟩ | ⟨-, -, hwhy⟩
      · cases hwhy
      · cases hwhy
    · cases hl : s.component.location? e.target with
      | none =>
        simp only [hl] at h
        cases fault_eq_error.mp h
      | some l =>
        simp only [hl] at h
        rcases enter_eq_error.mp h with ⟨why, -, hwhy⟩ | ⟨-, hwhy⟩
        · cases hwhy
        · cases hwhy

/-- An action is rejected for want of an edge exactly if none can be selected. -/
theorem fire_eq_noEdge {process location action : String} :
    s.fire direction label = .error (.step process (.noEdge location action)) ↔
      s.enabledEdge? direction label = .ok none ∧ process = s.process ∧ location = s.location ∧
        action = direction.actionText label := by
  simp only [fire]
  cases hselected : s.enabledEdge? direction label with
  | error why =>
    obtain ⟨x, -, e, rfl, -⟩ := select_eq_error hselected
    simp
  | ok selected =>
    cases selected with
    | none => simp [takeSelected, fault, eq_comm]
    | some x =>
      simp only [bind_ok, takeSelected, map_eq_error, Except.ok.injEq, reduceCtorEq, false_and,
        iff_false]
      exact take_ne_noEdge process location action

/-! ### The values after a step -/

/-- Of the values that are assigned to a clock or a local the last one counts; a local takes its integer
part. -/
theorem get?_of_assignAll {clocks clocks' : Bindings Float} {locals locals' : Bindings Int}
    {values : List (String × Float)}
    (h : s.assignAll clocks locals values = .ok (clocks', locals')) (name : String) :
    (clocks'.get? name =
      if s.component.isClock name = true then (values.reverse.lookup name).or (clocks.get? name)
      else clocks.get? name) ∧
    locals'.get? name =
      if s.component.isClock name = true then locals.get? name
      else ((values.reverse.lookup name).map Decimal.toWord64).or (locals.get? name) := by
  induction values generalizing clocks locals with
  | nil =>
    cases h
    simp
  | cons value values ih =>
    obtain ⟨target, x⟩ := value
    obtain ⟨⟨clocks₁, locals₁⟩, hfirst, hrest⟩ := bind_eq_ok.mp h
    obtain ⟨hclocks, hlocals⟩ := ih hrest
    rw [hclocks, hlocals, List.reverse_cons, List.lookup_append, Option.map_or, Option.or_assoc,
      Option.or_assoc]
    by_cases hname : name = target
    · subst hname
      rcases assign_eq_ok.mp hfirst with ⟨hclock, rfl, rfl⟩ | ⟨hclock, -, -, -, rfl, rfl⟩
      · simp [hclock]
      · simp [hclock]
    · have hskip : List.lookup name [(target, x)] = none := by
        simp [List.lookup_cons, beq_false_of_ne hname]
      rcases assign_eq_ok.mp hfirst with ⟨-, rfl, rfl⟩ | ⟨-, -, -, -, rfl, rfl⟩
      · simp [hskip, hname]
      · simp [hskip, hname]

/-- What is assigned and is no clock is a local, to which a value of its range is assigned. -/
theorem local_of_assignAll {clocks clocks' : Bindings Float} {locals locals' : Bindings Int}
    {values : List (String × Float)}
    (h : s.assignAll clocks locals values = .ok (clocks', locals')) {name : String} {x : Float}
    (hx : (name, x) ∈ values) (hclock : s.component.isClock name = false) :
    ∃ l, s.component.local? name = some l ∧ l.contains (Decimal.toWord64 x) = true := by
  induction values generalizing clocks locals with
  | nil => simp at hx
  | cons value values ih =>
    obtain ⟨⟨clocks₁, locals₁⟩, hfirst, hrest⟩ := bind_eq_ok.mp h
    rcases List.mem_cons.mp hx with rfl | hx
    · rcases assign_eq_ok.mp hfirst with ⟨hisClock, -⟩ | ⟨-, l, hl, hcontains, -⟩
      · simp [hclock] at hisClock
      · exact ⟨l, hl, hcontains⟩
    · exact ih hrest hx

/-- How the values after a step through an update come from those before it. Right-hand sides are
evaluated before the step, and of several assignments to a name the last one counts. -/
structure Assigns (s : Simulation) (u : Update) (t : Simulation) : Prop where
  clockAssigned : ∀ name a, s.component.isClock name = true → u.last? name = some a →
    ∃ x, a.evaluate s.valuation = .ok x ∧ t.clock? name = some x
  /-- What is assigned and is no clock is a local, which holds an integer of the declared range. -/
  localAssigned : ∀ name a, s.component.isClock name = false → u.last? name = some a →
    ∃ x l, a.evaluate s.valuation = .ok x ∧ s.component.local? name = some l ∧
      l.contains (Decimal.toWord64 x) = true ∧ t.local? name = some (Decimal.toWord64 x)
  clockKept : ∀ name, s.component.isClock name = false ∨ u.last? name = none →
    t.clock? name = s.clock? name
  localKept : ∀ name, s.component.isClock name = true ∨ u.last? name = none →
    t.local? name = s.local? name

/-- What taking an edge leads to: its target, whose invariant holds, with the values of its update. -/
theorem assigns_of_take {e : Edge} (h : s.take e = .ok t) :
    t.location = e.target ∧
    (∃ l, s.component.location? e.target = some l ∧ holds l.invariant t.valuation = .ok true) ∧
    ∃ u, Update.ofText e.update = .ok u ∧ s.Assigns u t := by
  obtain ⟨u, values, clocks, locals, l, hread, hvalues, hassign, hl, hholds, rfl⟩ := take_eq_ok.mp h
  have hget := get?_of_assignAll hassign
  have hlast := Update.lookup_of_evaluate hvalues
  refine ⟨rfl, ⟨l, hl, hholds⟩, u, hread, ⟨?_, ?_, ?_, ?_⟩⟩
  · intro name a hclock ha
    have hname := hlast name
    rw [ha] at hname
    obtain ⟨x, hx, hlookup⟩ := hname
    exact ⟨x, hx, by simp [clock?, (hget name).1, hclock, hlookup]⟩
  · intro name a hclock ha
    have hname := hlast name
    rw [ha] at hname
    obtain ⟨x, hx, hlookup⟩ := hname
    have hmem : (name, x) ∈ values := by
      obtain ⟨before, after, hsplit, -⟩ := List.lookup_eq_some_iff.mp hlookup
      exact List.mem_reverse.mp (by simp [hsplit])
    obtain ⟨l, hl, hcontains⟩ := local_of_assignAll hassign hmem hclock
    exact ⟨x, l, hx, hl, hcontains, by simp [local?, (hget name).2, hclock, hlookup]⟩
  · intro name hkept
    have hname := hlast name
    rcases hkept with hclock | hnone
    · simp [clock?, (hget name).1, hclock]
    · rw [hnone] at hname
      simp [clock?, (hget name).1, hname]
  · intro name hkept
    have hname := hlast name
    rcases hkept with hclock | hnone
    · simp [local?, (hget name).2, hclock]
    · rw [hnone] at hname
      simp [local?, (hget name).2, hname]

/-- Firing assigns simultaneously through the winning edge. An action is rejected for want of an edge
exactly if the guards of all edges with the action are decided and none holds. An edge that is fired is
the first or the last declared of those whose guards hold, and leads to its target, whose invariant
holds, with the values of its update. -/
theorem fire_takes_winner (s : Simulation) (direction : Direction) (label : String) :
    ((∃ process location action,
        s.fire direction label = .error (.step process (.noEdge location action))) ↔
      ∀ x ∈ s.offered direction label,
        TimedMutation.holds x.1.guard s.valuation = .ok false) ∧
    ∀ x t, s.fire direction label = .ok (x, t) →
      x ∈ s.offered direction label ∧
      TimedMutation.holds x.1.guard s.valuation = .ok true ∧
      (∀ y ∈ s.offered direction label,
        TimedMutation.holds y.1.guard s.valuation = .ok true → s.tieBreak.Prefers x.2 y.2) ∧
      t.location = x.1.target ∧
      (∃ l, s.component.location? x.1.target = some l ∧
        TimedMutation.holds l.invariant t.valuation = .ok true) ∧
      ∃ u, Update.ofText x.1.update = .ok u ∧ s.Assigns u t := by
  constructor
  · simp [fire_eq_noEdge, enabledEdge?_eq_none]
  · intro x t h
    obtain ⟨hselected, htake⟩ := fire_eq_ok.mp h
    obtain ⟨hx, hholds, hwins⟩ := enabledEdge?_eq_some hselected
    exact ⟨hx, hholds, hwins, assigns_of_take htake⟩

/-- Of two presses the last declared wins, which exchanges two levels. -/
theorem fire_exchanges_levels :
    let lamp := { Lamp.component with
      declarations := { Lamp.component.declarations with locals := [⟨"a", 0, 3, 1⟩, ⟨"b", 0, 3, 2⟩] }
      edges := [
        { source := "Idle", target := "Idle", direction := .input, sync := "press" },
        { source := "Idle", target := "Lit", direction := .input, sync := "press",
          update := "a=b, b=a" }] }
    let start := atStart lamp "S" .lastDeclared "Idle"
    Simulation.start lamp "S" .lastDeclared = .ok start ∧
      ∃ x t, start.fire .input "press" = .ok (x, t) ∧ x.2 = 1 ∧ t.location = "Lit" ∧
        t.local? "a" = some 2 ∧ t.local? "b" = some 1 := by
  intro lamp start
  let levels := (start.now.locals.insert "a" 2).insert "b" 1
  have hselected : start.enabledEdge? .input "press" = .ok (some (lamp.edges[1], 1)) := rfl
  have htake : start.take lamp.edges[1] =
      .ok (start.commit ⟨"Lit", start.now.clocks, levels⟩ (.action "Idle" "Lit" "press?")) :=
    take_eq_ok.mpr ⟨_, _, _, _, _, Lamp.ofText_exchange, rfl, rfl, rfl, rfl, rfl⟩
  have hfire := fire_eq_ok.mpr ⟨hselected, htake⟩
  obtain ⟨-, -, -, hlocation, -, u, hu, hassigns⟩ :=
    (fire_takes_winner start .input "press").2 _ _ hfire
  cases Lamp.ofText_exchange.symm.trans hu
  obtain ⟨x, l, hx, -, -, ha⟩ := hassigns.localAssigned "a" _ rfl rfl
  obtain ⟨y, l', hy, -, -, hb⟩ := hassigns.localAssigned "b" _ rfl rfl
  cases hx
  cases hy
  exact ⟨rfl, _, _, hfire, rfl, hlocation, ha, hb⟩

end Simulation
end TimedMutation
