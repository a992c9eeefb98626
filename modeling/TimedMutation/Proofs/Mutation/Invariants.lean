import TimedMutation.Proofs.Guard.Loosened
import TimedMutation.Proofs.Guard.RoundTrip
import TimedMutation.Proofs.Mutation.Found

/-! Mutants in which a part of an invariant is loosened. Only this part of the invariant changes. -/

namespace TimedMutation

/-- An invariant is read back with one of its parts loosened. -/
theorem Conjunction.ofText_loosened {text part : String} {guard : Conjunction} {k : ℕ} {r : Relation}
    (h : ofText text = .ok guard) (hk : guard.parts[k]? = some part)
    (hr : Relation.ofText part = .ok r) :
    ofText (Conjunction.mk (guard.parts.set k r.loosened.render)).render =
      .ok ⟨guard.parts.set k r.loosened.render⟩ := by
  have htext : r.loosened.render.toList = part.toList ++ " + 1".toList := by
    rw [Relation.render_loosened hr, String.toList_append]
  refine ofText_set h hk ?_ ?_ ?_
  · have hone : Text.Bare ['1'] := Text.bare_of_any (by simp) (by decide)
    have hbare := (bare_of_ofText h part (List.mem_of_getElem? hk)).append hone [' ', '+', ' ']
    rw [htext]
    simpa using hbare
  · intro hwhole
    rw [htext]
    exact hwhole.piecesFrom_append (by simp) (Text.whole_of_not_mem (by decide) _)
  · rw [htext, List.foldl_append]
    exact Text.foldl_depthAfter_of_not_mem (by decide) (by decide) _

variable {c : Component} {found : List Mutation} {x : Mutation}

/-- In a mutant with an invariant loosened, the invariant has the same parts but for one. If this part
is read as a comparison, then so it is in the mutant, with one added to its right side; but one is
added to the truth value of a comparison in parentheses. -/
theorem invariant_mutant_loosens (hfound : MutationClass.changeInvariant.mutations c = .ok found)
    (hx : x ∈ found) :
    ∃ i k l l' invariant part part' r, c.locations[i]? = some l ∧ l.kind.isCompletion = false ∧
      Conjunction.ofText l.invariant = .ok invariant ∧ invariant.parts[k]? = some part ∧
      Relation.ofText part = .ok r ∧
      x.discriminator = Text.ofNat i ++ "_" ++ Text.ofNat k ∧
      (x.testCase c).mutant.locations[i]? = some l' ∧ x.edit = .invariant i l'.invariant ∧
      Conjunction.ofText l'.invariant = .ok ⟨invariant.parts.set k part'⟩ ∧
      ∀ op left right, Expr.ofText part = .ok (.binary (.compare op) left right) →
        Expr.ofText part' =
          .ok (if r.isOuter then .binary (.compare op) left (.binary .add right (.number 1.0))
            else .binary .add (.binary (.compare op) left right) (.number 1.0)) := by
  obtain @⟨l, i, k, invariant, part, r, hl, hordinary, hinvariant, hpart, hr, his⟩ :=
    Component.loosensBound_of_mem hfound hx
  let text := (Conjunction.mk (invariant.parts.set k r.loosened.render)).render
  have hedit : x.edit = .invariant i text := his.edit
  refine ⟨i, k, l, { l with invariant := text }, invariant, part, r.loosened.render, r, hl, hordinary,
    hinvariant, hpart, hr, his.discriminator, ?_, hedit, Conjunction.ofText_loosened hinvariant hpart hr,
    fun op left right htree => Expr.ofText_loosened htree hr⟩
  rw [Mutation.testCase, hedit]
  change (c.locations.modify i _)[i]? = _
  rw [List.getElem?_modify_eq, hl]
  rfl

/-- A lamp that is lit for less than two units of time. -/
def Lamp.bounded : Component :=
  { Lamp.component with
    declarations := { Lamp.component.declarations with clocks := ["t"] }
    locations := [{ id := "Idle", kind := .initial }, { id := "Lit", invariant := "(t<2)" }] }

theorem Lamp.ofText_bound : Expr.ofText "(t<2)" =
    .ok (.binary (.compare .lt) (.var "t") (.number 2.0)) := by
  have hvalue : Decimal.Numeral.toFloat ⟨Decimal.digitsValue ['2'], 0⟩ = 2.0 := rfl
  have htwo : Token.Spells (.number 2.0) ['2'] := hvalue ▸ .whole (by simp) (by simp; decide)
  have hclose : Token.Written [.closeParen] [')'] := .of_spells (.symbol rfl)
  have hright := Token.Written.token htwo (by simp; decide) hclose
  have hless : Token.Spells (.compare .lt) ['<'] := .symbol rfl
  have hname : Token.Spells (.name "t") ['t'] := .name rfl rfl
  have hopen : Token.Spells .openParen ['('] := .symbol rfl
  have hwhole := Token.Written.token hopen (by simp; decide)
    (.token hname (by simp; decide) (.token hless (by simp; decide) hright))
  exact Expr.ofText_eq_ok.mpr ⟨_, hwhole, Expr.derives_of_ofTokens rfl⟩

/-- Its invariant is given the number of a truth value instead of another bound. -/
theorem invariant_mutant_of_bound_in_parentheses :
    ∃ x, MutationClass.changeInvariant.mutations Lamp.bounded = .ok [x] ∧
      ∃ l' part, (x.testCase Lamp.bounded).mutant.locations[1]? = some l' ∧
        Conjunction.ofText l'.invariant = .ok ⟨[part]⟩ ∧
        Expr.ofText part =
          .ok (.binary .add (.binary (.compare .lt) (.var "t") (.number 2.0)) (.number 1.0)) := by
  have hinvariant : Conjunction.ofText "(t<2)" = .ok ⟨["(t<2)"]⟩ := by
    have hpieces : Text.splitTopLevel ['&', '&'] "(t<2)".toList = ["(t<2)".toList] := by
      decide +kernel
    simp only [Conjunction.ofText, hpieces]
    rfl
  have hrelation : Relation.ofText "(t<2)" = .ok ⟨"(t", .lt, "2)"⟩ := rfl
  have hfound : ∃ x, MutationClass.changeInvariant.mutations Lamp.bounded = .ok [x] := by
    have hplaces : Lamp.bounded.locations.zipIdx =
        [(Lamp.bounded.locations[0], 0), (Lamp.bounded.locations[1], 1)] := rfl
    have hordinary : Lamp.bounded.locations[0].kind.isCompletion = false ∧
        Lamp.bounded.locations[1].kind.isCompletion = false := ⟨rfl, rfl⟩
    have hfirst : Conjunction.ofText Lamp.bounded.locations[0].invariant = .ok ⟨[]⟩ := rfl
    have hsecond : Conjunction.ofText Lamp.bounded.locations[1].invariant = _ := hinvariant
    simp only [MutationClass.mutations, Component.boundChanges, hplaces, List.filter_cons,
      List.filter_nil, hordinary, Bool.not_false, if_true, List.mapM_cons, List.mapM_nil, hfirst,
      hsecond]
    exact ⟨_, rfl⟩
  obtain ⟨x, hfound⟩ := hfound
  obtain ⟨i, k, l, l', invariant, part, part', r, hl, -, hread, hpart, hr, -, hl', -, hmutated, htree⟩ :=
    invariant_mutant_loosens hfound List.mem_cons_self
  -- Only the second location has a part.
  have hi : i = 0 ∨ i = 1 := by
    have hlt : i < 2 := (List.getElem?_eq_some_iff.mp hl).1
    omega
  rcases hi with rfl | rfl
  · cases hl
    cases hread
    simp at hpart
  · cases hl
    cases hinvariant.symm.trans hread
    have hk : k = 0 := by
      have hlt := (List.getElem?_eq_some_iff.mp hpart).1
      simpa using hlt
    subst hk
    cases hpart
    cases hrelation.symm.trans hr
    have hinner : (Relation.mk "(t" .lt "2)").isOuter = false := by decide
    refine ⟨x, hfound, l', part', hl', hmutated, ?_⟩
    simpa [hinner] using htree _ _ _ Lamp.ofText_bound

end TimedMutation
