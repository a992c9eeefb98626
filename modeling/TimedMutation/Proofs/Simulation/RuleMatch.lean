import TimedMutation.Proofs.Expr.Spacing
import TimedMutation.Proofs.Simulation.Progress

/-! Rules and the edges that are found for them. The values that a rule asks for are compared as texts
without white space, and agree as expressions. -/

namespace TimedMutation

/-! ### A sum with and without white space -/

namespace Lamp

/-- A press adds a level to another. -/
def adding : Component :=
  { component with
    declarations := { component.declarations with
      locals := [.fromLower "n" 0 3, .fromLower "m" 0 3] }
    edges := [
      { source := "Idle", target := "Lit", direction := .input, sync := "press",
        update := "n=n+m" }] }

theorem ofText_sum : Expr.ofText "n+m" = .ok (.binary .add (.var "n") (.var "m")) := by
  have hn : Token.Spells (.name "n") ['n'] := .name rfl rfl
  have hm : Token.Spells (.name "m") ['m'] := .name rfl rfl
  have hsum : Token.Written [.name "n", .plus, .name "m"] ['n', '+', 'm'] :=
    .token hn (by simp; decide) (.token (.symbol rfl) (by simp; decide) (.of_spells hm))
  exact Expr.ofText_eq_ok.mpr ⟨_, hsum, Expr.derives_of_ofTokens rfl⟩

theorem ofText_spaced_sum : Expr.ofText "n + m" = .ok (.binary .add (.var "n") (.var "m")) := by
  have hn : Token.Spells (.name "n") ['n'] := .name rfl rfl
  have hm : Token.Spells (.name "m") ['m'] := .name rfl rfl
  have hsum : Token.Written [.name "n", .plus, .name "m"] ['n', ' ', '+', ' ', 'm'] :=
    .token hn (by simp; decide) <| .blank rfl <| .token (.symbol rfl) (by simp; decide) <|
      .blank rfl <| .of_spells hm
  exact Expr.ofText_eq_ok.mpr ⟨_, hsum, Expr.derives_of_ofTokens rfl⟩

theorem ofText_adding :
    Update.ofText "n=n+m" = .ok ⟨[⟨"n=n+m", "n", "n+m", .binary .add (.var "n") (.var "m")⟩]⟩ := by
  have hassign : Assignment.ofText "n=n+m" = .ok ⟨"n=n+m", "n", "n+m", _⟩ :=
    Assignment.ofText_of_cut rfl rfl (by decide) rfl rfl ofText_sum
  refine Update.ofText_of_parts rfl (by decide +kernel : _ = ["n=n+m"]) ?_
  simp only [List.mapM_cons, hassign]
  rfl

theorem ofText_spaced_adding : Update.ofText "n = n + m" =
    .ok ⟨[⟨"n = n + m", "n", "n + m", .binary .add (.var "n") (.var "m")⟩]⟩ := by
  have hassign : Assignment.ofText "n = n + m" = .ok ⟨"n = n + m", "n", "n + m", _⟩ :=
    Assignment.ofText_of_cut rfl rfl (by decide) rfl rfl ofText_spaced_sum
  refine Update.ofText_of_parts rfl (by decide +kernel : _ = ["n = n + m"]) ?_
  simp only [List.mapM_cons, hassign]
  rfl

end Lamp

namespace Simulation

variable {s : Simulation} {rule : ActionRule} {x : NumberedEdge}

theorem makes_eq_true {u required : Update} :
    makes u required = true ↔ ∀ wanted ∈ required.assignments, ∃ a ∈ u.assignments,
      a.target = wanted.target ∧
        Text.squeeze a.value.toList = Text.squeeze wanted.value.toList := by
  simp only [makes, List.all_eq_true, List.any_eq_true, Bool.and_eq_true, beq_iff_eq]

/-- Values that are the same without white space are the same expression. -/
theorem values_of_makes {u required : Update} {text text' : String} (hu : Update.ofText text = .ok u)
    (hrequired : Update.ofText text' = .ok required) (h : makes u required = true)
    {wanted : Assignment} (hwanted : wanted ∈ required.assignments) :
    ∃ a ∈ u.assignments, a.target = wanted.target ∧
      ∃ e, Expr.ofText a.value = .ok e ∧ Expr.ofText wanted.value = .ok e := by
  obtain ⟨a, ha, htarget, hvalue⟩ := makes_eq_true.mp h wanted hwanted
  have hread := Update.assignment_of_ofText hu ha
  have hread' := Update.assignment_of_ofText hrequired hwanted
  obtain ⟨-, -, hexpr, -⟩ := Assignment.of_ofText hread
  obtain ⟨-, -, hexpr', -⟩ := Assignment.of_ofText hread'
  have hsame : a.expr = wanted.expr := Expr.eq_of_squeeze_eq hexpr hexpr' hvalue
  exact ⟨a, ha, htarget, a.expr, hexpr, hsame ▸ hexpr'⟩

/-- An edge that is found for a rule leaves the location, is enabled, leads where the rule says with the
action that it names, and makes every assignment of the rule: to the same target, of an expression with
the same tree. -/
theorem peekRule?_agrees (h : s.peekRule? rule = .ok (some x)) :
    s.component.edges[x.2]? = some x.1 ∧ x.1.source = s.location ∧
    x.1.target = rule.destination ∧
    (∀ label direction, rule.sync = some (label, direction) →
      x.1.sync = label ∧ x.1.direction = direction) ∧
    TimedMutation.holds x.1.guard s.valuation = .ok true ∧
    ∃ required u, Update.ofText rule.unqualifiedUpdate = .ok required ∧
      Update.ofText x.1.update = .ok u ∧
      ∀ wanted ∈ required.assignments, ∃ a ∈ u.assignments, a.target = wanted.target ∧
        ∃ e, Expr.ofText a.value = .ok e ∧ Expr.ofText wanted.value = .ok e := by
  obtain ⟨hleaving, hfits⟩ := of_peekRule?_eq_some h
  simp only [peekRule?, bind_eq_ok, inSimulation_eq_ok] at h
  obtain ⟨required, hrequired, hselect⟩ := h
  obtain ⟨-, hwanted, hholds⟩ := of_select_eq_some hselect
  simp only [hfits, if_true, map_eq_ok] at hwanted
  obtain ⟨u, hu, hmakes⟩ := hwanted
  simp only [leaving, List.mem_filter, List.mem_zipIdx_iff_getElem?, beq_iff_eq] at hleaving
  have htarget : x.1.target = rule.destination := by
    simp only [fits, Bool.and_eq_true, beq_iff_eq] at hfits
    exact hfits.1
  refine ⟨hleaving.1, hleaving.2, htarget, ?_, hholds, required, u, hrequired, hu, ?_⟩
  · exact fun label direction hsync => action_of_fits hfits hsync
  · exact fun wanted hmem => values_of_makes hu hrequired hmakes hmem

/-- A press that adds a level to another is found for a rule that writes the sum with white space and
qualified names. -/
theorem peekRule?_spaced_sum :
    let start := atStart Lamp.adding "S" .firstDeclared "Idle"
    let rule : ActionRule := ⟨"", "S", "Lit", some ("press", .input), "S.n = S.n + S.m"⟩
    ∃ x, start.peekRule? rule = .ok (some x) ∧ x.1.update = "n=n+m" ∧
      ∃ required u, Update.ofText "n = n + m" = .ok required ∧ Update.ofText "n=n+m" = .ok u ∧
        ∀ wanted ∈ required.assignments, ∃ a ∈ u.assignments, a.target = wanted.target ∧
          ∃ e, Expr.ofText a.value = .ok e ∧ Expr.ofText wanted.value = .ok e := by
  intro start rule
  have htext : rule.unqualifiedUpdate = "n = n + m" := by decide +kernel
  have hpeek : start.peekRule? rule = .ok (some (Lamp.adding.edges[0], 0)) := by
    have hleaving : start.leaving = [(Lamp.adding.edges[0], 0)] := rfl
    have hread : Update.ofText Lamp.adding.edges[0].update = _ := Lamp.ofText_adding
    have hfits : fits rule Lamp.adding.edges[0] = true := by decide
    simp only [peekRule?, htext, Lamp.ofText_spaced_adding, inSimulation, bind_ok, select, hleaving,
      enabledAmong, hfits, if_true, hread]
    rfl
  obtain ⟨-, -, -, -, -, required, u, hrequired, hu, hvalues⟩ := peekRule?_agrees hpeek
  rw [htext] at hrequired
  exact ⟨_, hpeek, rfl, required, u, hrequired, hu, hvalues⟩

end Simulation
end TimedMutation
