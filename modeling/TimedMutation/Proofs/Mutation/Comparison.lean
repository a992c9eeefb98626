import TimedMutation.Proofs.Expr.Swap
import TimedMutation.Proofs.Guard.Tokens
import TimedMutation.Proofs.Mutation.Found
import TimedMutation.Proofs.Mutation.SingleEdit
import TimedMutation.Proofs.Simulation.Progress

/-! Mutants in which a guard compares differently. The edit is one of text, and changes one comparison of
the guard's expression. -/

namespace TimedMutation

/-- The text of a guard with another comparison in one part is read as the guard with this comparison. -/
theorem Expr.ofText_withOp {text part : String} {guard : Conjunction} {k : ℕ} {r : Relation}
    {tree : Expr} (h : ofText text = .ok tree) (hguard : Conjunction.ofText text = .ok guard)
    (hpart : guard.parts[k]? = some part) (hr : Relation.ofText part = .ok r) (op : Comparison) :
    ∃ tree', ofText (Conjunction.mk (guard.parts.set k (r.withOp op).render)).render = .ok tree' ∧
      Swaps r.op op tree tree' := by
  obtain ⟨ts, hwritten, hphrase⟩ := ofText_eq_ok.mp h
  obtain ⟨front, back, rfl, hmutated⟩ := hwritten.withOp hguard hpart hr
  obtain ⟨tree', hphrase', hswap⟩ := hphrase.swap op
  exact ⟨tree', ofText_eq_ok.mpr ⟨_, hmutated op, hphrase'⟩, hswap⟩

/-- Changing the guard of an edge changes the guard of this edge. -/
theorem Component.guard_withEdge {c : Component} {i : ℕ} {e : Edge} (he : c.edges[i]? = some e)
    (text : String) :
    ∃ e', ((Edit.guard i text).apply c).edges[i]? = some e' ∧ e'.guard = text :=
  ⟨_, getElem?_withEdge he fun e => { e with guard := text }, rfl⟩

variable {c : Component} {m : MutationClass} {found : List Mutation} {x : Mutation}

theorem Mutation.SwapsComparison.tree {aboutClocks : Bool} {candidates : List Comparison}
    (h : x.SwapsComparison c m aboutClocks candidates)
    (hclocks : m = .changeGuardOpClocks → ∀ op ∈ candidates, op = .le ∨ op = .gt) :
    ∃ i e e', c.edges[i]? = some e ∧ e.locked = false ∧
      (x.testCase c).mutant.edges[i]? = some e' ∧ x.edit = .guard i e'.guard ∧
      ∀ tree, Expr.ofText e.guard = .ok tree →
        ∃ tree' op op', Expr.ofText e'.guard = .ok tree' ∧ op' ≠ op ∧
          (m = .changeGuardOpClocks → op' = .le ∨ op' = .gt) ∧ Expr.Swaps op op' tree tree' := by
  obtain ⟨he, hfree, hguard, hpart, -, hrelation, hcandidate, hother, his⟩ := h
  obtain ⟨e', he', htext⟩ := Component.guard_withEdge he _
  refine ⟨_, _, e', he, hfree, ?_, ?_, ?_⟩
  · rw [Mutation.testCase, his.edit]
    exact he'
  · rw [his.edit, htext]
  · intro tree htree
    obtain ⟨tree', htree', hswap⟩ := Expr.ofText_withOp htree hguard hpart hrelation _
    exact ⟨tree', _, _, htext ▸ htree', hother, fun hm => hclocks hm _ hcandidate, hswap⟩

/-- A mutant with another comparison in the guard of an unlocked edge has, where the guard can be read,
a guard that can be read, and its tree differs in one comparison; of clocks it is `<=` or `>` then. -/
theorem comparison_mutant_swaps (hm : m = .changeGuardOpClocks ∨ m = .changeGuardOpLocals)
    (hfound : m.mutations c = .ok found) (hx : x ∈ found) :
    ∃ i e e', c.edges[i]? = some e ∧ e.locked = false ∧
      (x.testCase c).mutant.edges[i]? = some e' ∧ x.edit = .guard i e'.guard ∧
      ∀ tree, Expr.ofText e.guard = .ok tree →
        ∃ tree' op op', Expr.ofText e'.guard = .ok tree' ∧ op' ≠ op ∧
          (m = .changeGuardOpClocks → op' = .le ∨ op' = .gt) ∧ Expr.Swaps op op' tree tree' := by
  rcases hm with rfl | rfl
  · have hclocks : ∀ op ∈ Comparison.forClocks, op = .le ∨ op = .gt := by simp [Comparison.forClocks]
    exact (Component.swapsComparison_of_mem hfound hx).tree fun _ => hclocks
  · exact (Component.swapsComparison_of_mem hfound hx).tree nofun

/-- The lamp that goes out from the level on has a mutant that goes out up to it. -/
theorem comparison_of_timed_lamp :
    let x := Component.guardChange .changeGuardOpClocks Lamp.timed.edges[1] 1 "0_le" "t<=n"
    ∃ found, MutationClass.changeGuardOpClocks.mutations Lamp.timed = .ok found ∧ x ∈ found ∧
      Expr.ofText "t>=n" = .ok (.binary (.compare .ge) (.var "t") (.var "n")) ∧
      ∃ tree', Expr.ofText "t<=n" = .ok tree' ∧
        ∃ op op', op' ≠ op ∧ (op' = .le ∨ op' = .gt) ∧
          Expr.Swaps op op' (.binary (.compare .ge) (.var "t") (.var "n")) tree' := by
  intro x
  let y := Component.guardChange .changeGuardOpClocks Lamp.timed.edges[1] 1 "0_gt" "t>n"
  have hguard : Conjunction.ofText "t>=n" = .ok ⟨["t>=n"]⟩ := by
    have hpieces : Text.splitTopLevel ['&', '&'] "t>=n".toList = ["t>=n".toList] := by decide +kernel
    simp only [Conjunction.ofText, hpieces]
    rfl
  have hfound : MutationClass.changeGuardOpClocks.mutations Lamp.timed = .ok [x, y] := by
    have hunlocked : Lamp.timed.unlockedEdges =
        [(Lamp.timed.edges[0], 0), (Lamp.timed.edges[1], 1)] := rfl
    have hpress : Conjunction.ofText Lamp.timed.edges[0].guard = .ok ⟨[]⟩ := rfl
    have hoff : Conjunction.ofText Lamp.timed.edges[1].guard = .ok ⟨["t>=n"]⟩ := hguard
    simp only [MutationClass.mutations, Component.comparisonChanges, Component.atUnlockedEdges,
      hunlocked, List.mapM_cons, List.mapM_nil, hpress, hoff]
    rfl
  refine ⟨_, hfound, List.mem_cons_self, Lamp.ofText_guard, ?_⟩
  obtain ⟨i, e, e', he, -, he', hedit, htree⟩ :=
    comparison_mutant_swaps (.inl rfl) hfound List.mem_cons_self
  obtain ⟨rfl, htext⟩ := Edit.guard.inj hedit
  cases he
  obtain ⟨tree', op, op', hread, hother, hop, hswap⟩ := htree _ Lamp.ofText_guard
  exact ⟨tree', htext ▸ hread, op, op', hother, hop rfl, hswap⟩

end TimedMutation
