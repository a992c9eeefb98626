import TimedMutation.Proofs.Expr.Eval
import TimedMutation.Proofs.Simulation.Reachable
import TimedMutation.Proofs.Update

/-! Components whose texts have values wherever their clocks and locals have some. What a simulation
of one does not take, it rejects for an invariant, for want of an edge or for the range of a local,
and never because the component cannot be run. -/

namespace TimedMutation

/-! ### Texts that have a value -/

/-- An expression that has a value wherever the names in `scope` have one. It refers to no other
name and divides by nothing. -/
structure Expr.TotalOver (scope : List String) (e : Expr) : Prop where
  known : ∀ name ∈ e.names, name ∈ scope
  undivided : ∀ op l r, .binary op l r ∈ e.parts → op ≠ .div ∧ op ≠ .rem

/-- A guard or an invariant that is decided wherever the names in `scope` have a value. -/
def DecidedOver (scope : List String) (text : String) : Prop :=
  Text.allBlank text.toList = true ∨ ∃ e, Expr.ofText text = .ok e ∧ e.TotalOver scope

/-- An update that assigns, and can be evaluated over, the names in `scope`. -/
structure Update.TotalOver (scope : List String) (u : Update) : Prop where
  targets : ∀ a ∈ u.assignments, a.target ∈ scope
  values : ∀ a ∈ u.assignments, a.expr.TotalOver scope

section

variable {scope : List String} {v : Valuation}

theorem Expr.TotalOver.eval {e : Expr} (h : e.TotalOver scope)
    (hv : ∀ name ∈ scope, name ∈ v.names) : ∃ x, e.eval v = .ok x := by
  cases heval : e.eval v with
  | ok x => exact ⟨x, rfl⟩
  | error why =>
    exfalso
    cases Expr.fails_of_eval heval with
    | unbound hpart hunbound =>
      have hbound := Bindings.mem_names.mp (hv _ (h.known _ (Expr.mem_names.mpr hpart)))
      simp [hunbound] at hbound
    | division hpart hdivides =>
      obtain ⟨hdiv, hrem⟩ := h.undivided _ _ _ hpart
      exact hdivides.elim hdiv hrem

theorem DecidedOver.holds {text : String} (h : DecidedOver scope text)
    (hv : ∀ name ∈ scope, name ∈ v.names) : ∃ held, holds text v = .ok held := by
  unfold TimedMutation.holds
  rcases h with hblank | ⟨e, hread, htotal⟩
  · exact ⟨true, by rw [if_pos hblank]⟩
  · obtain ⟨x, hx⟩ := htotal.eval hv
    split
    · exact ⟨true, rfl⟩
    · exact ⟨x.asBool, by simp [hread, Expr.evalBool, hx, Except.map]⟩

theorem Update.TotalOver.evaluate {u : Update} (h : u.TotalOver scope)
    (hv : ∀ name ∈ scope, name ∈ v.names) : ∃ values, u.evaluate v = .ok values := by
  cases hevaluate : u.evaluate v with
  | ok values => exact ⟨values, rfl⟩
  | error why =>
    obtain ⟨a, ha, herror⟩ := exists_of_mapM_eq_error hevaluate
    obtain ⟨x, hx⟩ := (h.values a ha).eval hv
    simp [Assignment.evaluate, Expr.evalNumber, hx, Except.map] at herror

end

/-! ### Evaluable components -/

/-- The names of the clocks and the locals. -/
def Declarations.variables (d : Declarations) : List String := d.clocks ++ d.locals.map (·.name)

/-- Every text of the component can be read and has a value wherever the declared clocks and locals
have one, and only these are assigned. -/
structure Component.Evaluable (c : Component) : Prop where
  invariants : ∀ l ∈ c.locations, DecidedOver c.declarations.variables l.invariant
  guards : ∀ e ∈ c.edges, DecidedOver c.declarations.variables e.guard
  updates : ∀ e ∈ c.edges, ∃ u, Update.ofText e.update = .ok u ∧
    u.TotalOver c.declarations.variables

theorem Component.isClock_or_local {c : Component} {name : String}
    (h : name ∈ c.declarations.variables) :
    c.isClock name = true ∨ ∃ l, c.local? name = some l := by
  rcases List.mem_append.mp h with hclock | hlocal
  · exact .inl (by simpa [isClock] using hclock)
  · refine .inr (Option.isSome_iff_exists.mp ?_)
    simpa [local?, List.find?_isSome] using hlocal

/-- A lamp whose press sets a clock to a local, and which goes out once the clock has come there. -/
def Lamp.timed : Component :=
  { Lamp.component with
    declarations := { Lamp.component.declarations with
      clocks := ["t"], locals := [.fromLower "n" 0 3] }
    edges := [
      { source := "Idle", target := "Lit", direction := .input, sync := "press", update := "t=n" },
      { source := "Lit", target := "Idle", direction := .output, sync := "off", guard := "t>=n" }] }

namespace Lamp

theorem at?_local : Token.at? ['n'] = some (.name "n", []) := rfl

theorem ofText_guard : Expr.ofText "t>=n" = .ok (.binary (.compare .ge) (.var "t") (.var "n")) := by
  have hchars : "t>=n".toList = ['t', '>', '=', 'n'] := rfl
  have ht : Token.at? ['t', '>', '=', 'n'] = some (.name "t", ['>', '=', 'n']) := rfl
  have hge : Token.at? ['>', '=', 'n'] = some (.compare .ge, ['n']) := rfl
  rw [Expr.ofText, hchars, Token.scan, Token.scanFrom_of_at? (by decide) ht,
    Token.scanFrom_of_at? (by decide) hge, Token.scanFrom_of_at? (by decide) at?_local]
  unfold Token.scanFrom
  rfl

theorem ofText_update : Update.ofText "t=n" = .ok ⟨[⟨"t=n", "t", "n", .var "n"⟩]⟩ := by
  have hvalue : Expr.ofText "n" = .ok (.var "n") := by
    have hchars : "n".toList = ['n'] := rfl
    rw [Expr.ofText, hchars, Token.scan_eq_single (by decide) at?_local]
    rfl
  have hassign : Assignment.ofText "t=n" = .ok ⟨"t=n", "t", "n", .var "n"⟩ := by
    have hcut : Text.cutAt? ['='] "t=n".toList = some (['t'], ['n']) := rfl
    have htarget : Text.trim ((Text.beforeEnd? [':'] ['t']).getD ['t']) = ['t'] := rfl
    have hn : String.ofList (Text.trim ['n']) = "n" := rfl
    have hname : Assignment.isIdentifier ['t'] = true := by decide
    simp only [Assignment.ofText, hcut, htarget, hn, hname, hvalue]
    rfl
  have hpieces : Text.splitTopLevel [','] ['t', '=', 'n'] = [['t', '=', 'n']] := by
    simp [Text.splitTopLevel, Text.piecesFrom, Text.afterStart?, Text.depthAfter]
  have htrim : Text.trim "t=n".toList = ['t', '=', 'n'] := rfl
  have hpiece : String.ofList (Text.trim ['t', '=', 'n']) = "t=n" := rfl
  simp only [Update.ofText, htrim, hpieces, List.map_cons, List.map_nil, hpiece, List.mapM_cons,
    hassign]
  rfl

theorem evaluable_timed : timed.Evaluable where
  invariants l hl := by
    have hnone : ∀ l ∈ timed.locations, l.invariant = "" := by decide
    exact .inl (hnone l hl ▸ rfl)
  guards e he := by
    rcases List.mem_cons.mp he with rfl | he
    · exact .inl rfl
    · cases List.mem_singleton.mp he
      refine .inr ⟨_, ofText_guard, by decide, fun op l r hpart => ?_⟩
      have hop : op = .compare .ge ∧ l = .var "t" ∧ r = .var "n" := by simpa [Expr.parts] using hpart
      rw [hop.1]
      decide
  updates e he := by
    rcases List.mem_cons.mp he with rfl | he
    · refine ⟨_, ofText_update, by decide, fun a ha => ?_⟩
      cases List.mem_singleton.mp ha
      exact ⟨by decide, by simp [Expr.parts]⟩
    · cases List.mem_singleton.mp he
      exact ⟨.empty, rfl, by simp [Update.empty], by simp [Update.empty]⟩

end Lamp

/-! ### Runs -/

/-- A request that can be made of any component: time that can pass, any action, or a rule whose
update can be read. -/
def Call.Proper : Call → Prop
  | .delay amount => amount.isFinite = true ∧ ¬ amount < 0.0
  | .fire _ _ => True
  | .fireRule rule => ∃ u, Update.ofText rule.unqualifiedUpdate = .ok u

namespace Simulation

variable {s : Simulation} {call : Call} {why : SimulationError}

/-- A state with the declared values gives every declared name one. -/
theorem Declared.valuation {c : Component} {next : Snapshot}
    (h : Declared c next.clocks next.locals) :
    ∀ name ∈ c.declarations.variables, name ∈ next.valuation.names := by
  intro name hname
  rw [Snapshot.valuation, Bindings.mem_names_union, Bindings.names_map, h.clockNames, h.localNames]
  exact List.mem_append.mp hname

/-- In a sound state of a simulation of an evaluable component, a proper call is rejected for what the
call asks and not for how the component is written. -/
theorem Sound.not_fatal (h : s.Sound) (hwell : s.component.WellFormed)
    (heval : s.component.Evaluable) (hcall : call.Proper) (hwhy : s.Rejects call why) :
    why.isFatal = false := by
  -- Guards and updates are evaluated in the present state, an invariant in the one that would follow.
  have hnow := h.declared.valuation
  cases hwhy with
  | noEdge | bounds | violated => rfl
  | amount hbad =>
    obtain ⟨hfinite, hnonneg⟩ := hcall
    rcases hbad with hbad | hbad
    · simp [hfinite] at hbad
    · exact absurd hbad hnonneg
  | required hunread =>
    obtain ⟨u, hread⟩ := hcall
    rw [hread] at hunread
    cases hunread
  | guard hx hundecided =>
    obtain ⟨held, hheld⟩ := (heval.guards _ (mem_leaving hx).1).holds hnow
    rw [valuation, hheld] at hundecided
    cases hundecided
  | update hx hunread =>
    obtain ⟨u, hread, -⟩ := heval.updates _ (mem_leaving hx).1
    rw [hread] at hunread
    cases hunread
  | value hx hreads hundecided =>
    obtain ⟨u, hread, htotal⟩ := heval.updates _ (mem_leaving hx).1
    cases hread.symm.trans hreads
    obtain ⟨values, hvalues⟩ := htotal.evaluate hnow
    rw [valuation, hvalues] at hundecided
    cases hundecided
  | undeclared hx hreads ha hclock hlocal =>
    obtain ⟨u, hread, htotal⟩ := heval.updates _ (mem_leaving hx).1
    cases hread.symm.trans hreads
    rcases Component.isClock_or_local (htotal.targets _ ha) with hisClock | ⟨l, hl⟩
    · simp [hclock] at hisClock
    · simp [hlocal] at hl
  | unknown hx hnowhere =>
    have htarget := Component.isSome_location? (hwell.ends _ (mem_leaving hx).1).2
    simp [hnowhere] at htarget
  | invariant hcandidate hlocated hundecided =>
    have hmem := (hwell.location?_eq_some_iff.mp hlocated).1
    obtain ⟨held, hheld⟩ := (heval.invariants _ hmem).holds (h.candidate hcandidate).valuation
    rw [hheld] at hundecided
    cases hundecided

/-- In whatever state a simulation of a valid and evaluable component is, it takes each proper call
or rejects it without an abort. -/
theorem evaluable_never_aborts {c : Component} (hc : c.validate = .ok ()) (heval : c.Evaluable)
    {process : String} {tieBreak : TieBreak} (hs : start c process tieBreak = .ok s)
    (calls : List Call) (hcall : call.Proper) :
    (∃ t, (s.afterAll calls).answer call = .ok t) ∨
      ∃ why, (s.afterAll calls).answer call = .error why ∧ why.isFatal = false := by
  have hwell := Component.validate_eq_ok_iff.mp hc
  obtain ⟨hstart, rfl⟩ := sound_of_start hwell hs
  obtain ⟨hsound, hsame⟩ := hstart.afterAll calls
  cases hanswer : (s.afterAll calls).answer call with
  | ok t => exact .inl ⟨t, rfl⟩
  | error why =>
    refine .inr ⟨why, rfl, ?_⟩
    exact hsound.not_fatal (hsame ▸ hwell) (hsame ▸ heval) hcall (rejects_of_answer hanswer)

/-- Time can pass for the lamp after a press and a wish to see it out, or it is told why not. -/
theorem timed_lamp_never_aborts :
    let start := atStart Lamp.timed "S" .firstDeclared "Idle"
    let calls := [Call.fire .input "press", .fire .output "off"]
    Lamp.timed.validate = .ok () ∧ Lamp.timed.Evaluable ∧
      Simulation.start Lamp.timed "S" .firstDeclared = .ok start ∧ (Call.delay 1.0).Proper ∧
      ((∃ t, (start.afterAll calls).answer (.delay 1.0) = .ok t) ∨
        ∃ why, (start.afterAll calls).answer (.delay 1.0) = .error why ∧ why.isFatal = false) := by
  intro start calls
  have hvalid : Lamp.timed.validate = .ok () := rfl
  have hstart : Simulation.start Lamp.timed "S" .firstDeclared = .ok start := rfl
  have hproper : (Call.delay 1.0).Proper := ⟨rfl, by decide⟩
  exact ⟨hvalid, Lamp.evaluable_timed, hstart, hproper,
    evaluable_never_aborts hvalid Lamp.evaluable_timed hstart calls hproper⟩

end Simulation
end TimedMutation
