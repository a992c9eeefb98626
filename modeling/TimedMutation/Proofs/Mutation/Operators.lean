import TimedMutation.Proofs.Guard.Parts
import TimedMutation.Proofs.Mutation.Found
import TimedMutation.Proofs.Mutation.SingleEdit
import TimedMutation.Proofs.Update

/-! Every mutation is one edit of its class, and the text that it writes is never the text that was
there. -/

namespace TimedMutation
namespace Component

variable {c : Component} {e : Edge} {i : ℕ} {x : Mutation} {found : List Mutation}

/-! ### Names -/

theorem editsOnce_of_mem_sourceChanges (hlocks : c.refreshLocks = c) (hx : x ∈ c.sourceChanges) :
    EditsOnce c .changeSource (x.edit.apply c) := by
  obtain ⟨he, hfree, -, hid, his⟩ := movesSource_of_mem hx
  rw [his.edit]
  exact Edit.editsOnce_withEdge hlocks he hfree ⟨hid, rfl⟩

theorem editsOnce_of_mem_targetChanges (hlocks : c.refreshLocks = c) (hx : x ∈ c.targetChanges) :
    EditsOnce c .changeTarget (x.edit.apply c) := by
  obtain ⟨he, hfree, -, hid, his⟩ := movesTarget_of_mem hx
  rw [his.edit]
  exact Edit.editsOnce_withEdge hlocks he hfree ⟨hid, rfl⟩

theorem editsOnce_of_mem_actionChanges (hlocks : c.refreshLocks = c) {direction : Direction}
    (hx : x ∈ c.actionChanges direction) :
    EditsOnce c (actionClass direction) (x.edit.apply c) := by
  obtain ⟨he, hfree, -, hnew, his⟩ := givesAction_of_mem hx
  rw [his.edit]
  refine Edit.editsOnce_withEdge hlocks he hfree ?_
  cases direction with
  | input => exact ⟨hnew, rfl⟩
  | output => exact ⟨hnew, rfl⟩

theorem editsOnce_of_mem_sinkRedirections (hlocks : c.refreshLocks = c)
    (hx : x ∈ c.sinkRedirections) : EditsOnce c .sinkLocation (x.edit.apply c) := by
  obtain ⟨he, hfree, his⟩ := addsSink_of_mem hx
  rw [his.edit]
  exact Edit.editsOnce_sink hlocks he hfree (c.freshId_ne "Sink")

/-! ### Guards and invariants -/

theorem render_withOp_ne {text part : String} {guard : Conjunction} {place : ℕ}
    {relation : Relation} {op : Comparison} (hguard : Conjunction.ofText text = .ok guard)
    (hpart : guard.parts[place]? = some part) (hrelation : Relation.ofText part = .ok relation)
    (hop : op ≠ relation.op) :
    (Conjunction.mk (guard.parts.set place (relation.withOp op).render)).render ≠ text := by
  obtain ⟨char, hblank, hchar, hcount⟩ := Comparison.exists_count_ne hop
  refine Conjunction.render_set_ne hguard hpart hblank hchar ?_
  have hold := Relation.render_of_ofText hrelation
  rw [← hold]
  simp only [Relation.render, Relation.withOp, String.toList_append, List.count_append]
  omega

theorem editsOnce_of_comparisonChanges (hlocks : c.refreshLocks = c) {operator : MutationClass}
    {aboutClocks : Bool} {candidates : List Comparison}
    (hclass : operator = .changeGuardOpClocks ∨ operator = .changeGuardOpLocals)
    (h : c.comparisonChanges operator aboutClocks candidates = .ok found) (hx : x ∈ found) :
    EditsOnce c operator (x.edit.apply c) := by
  obtain ⟨he, hfree, hguard, hpart, -, hrelation, -, hop, his⟩ := swapsComparison_of_mem h hx
  have htext := render_withOp_ne hguard hpart hrelation hop
  rw [his.edit]
  refine Edit.editsOnce_withEdge hlocks he hfree ?_
  rcases hclass with rfl | rfl
  · exact ⟨htext, rfl⟩
  · exact ⟨htext, rfl⟩

theorem editsOnce_of_constantChanges (hlocks : c.refreshLocks = c)
    (h : c.constantChanges = .ok found) (hx : x ∈ found) :
    EditsOnce c .changeGuardConstant (x.edit.apply c) := by
  cases shiftsConstant_of_mem h hx with
  | @intro e i place literal step name he hfree hliteral hshift his =>
    have hvalue : literal.value + step ≠ literal.value := by
      simp only [shifts, List.mem_cons, Prod.mk.injEq, List.not_mem_nil, or_false] at hshift
      omega
    have htext := IntegerLiteral.replacedBy_ne (List.mem_of_getElem? hliteral) hvalue
    rw [his.edit]
    exact Edit.editsOnce_withEdge hlocks he hfree ⟨htext, rfl⟩

theorem render_withRight_ne {text part : String} {invariant : Conjunction} {place : ℕ}
    {relation : Relation} (hinvariant : Conjunction.ofText text = .ok invariant)
    (hpart : invariant.parts[place]? = some part)
    (hrelation : Relation.ofText part = .ok relation) :
    (Conjunction.mk (invariant.parts.set place
      (relation.withRight (relation.right ++ " + 1")).render)).render ≠ text := by
  have hplus : Text.isBlank '+' = false := by decide
  refine Conjunction.render_set_ne hinvariant hpart hplus (by decide) ?_
  have hone : " + 1".toList.count '+' = 1 := by decide
  have hold := Relation.render_of_ofText hrelation
  rw [← hold]
  simp only [Relation.render, Relation.withRight, String.toList_append, List.count_append, hone]
  omega

theorem editsOnce_of_boundChanges (h : c.boundChanges = .ok found) (hx : x ∈ found) :
    EditsOnce c .changeInvariant (x.edit.apply c) := by
  obtain ⟨hl, hkind, hinvariant, hpart, hrelation, his⟩ := loosensBound_of_mem h hx
  rw [his.edit]
  exact Edit.editsOnce_invariant hl hkind (render_withRight_ne hinvariant hpart hrelation)

/-! ### Updates -/

theorem render_toggledReset_ne {text clock : String} {u mutated : Update}
    (hu : Update.ofText text = .ok u) (h : Mutation.toggledReset u clock = .ok mutated) :
    mutated.render ≠ text := by
  simp only [Mutation.toggledReset] at h
  split at h
  · rename_i place hplace
    cases h
    obtain ⟨hlt, -⟩ := List.findIdx?_eq_some_iff_getElem.mp hplace
    exact Update.render_erase_ne hu hlt
  · rename_i hnone
    refine Update.render_assign_ne hu h (by decide) Assignment.isBlank_zero ?_
    intro old hold hread
    have hmem := List.mem_of_find?_eq_some hold
    have htarget : old.target = clock := by simpa using List.find?_some hold
    have hreset : old.isReset = true :=
      Assignment.isReset_of_ofText hread (htarget ▸ Update.equals_not_mem_target hu hmem)
    have hfound := List.findIdx?_eq_none_iff.mp hnone old hmem
    simp [htarget, hreset] at hfound

theorem editsOnce_of_resetChanges (hlocks : c.refreshLocks = c) (h : c.resetChanges = .ok found)
    (hx : x ∈ found) : EditsOnce c .invertReset (x.edit.apply c) := by
  obtain ⟨he, hfree, hu, -, htoggled, his⟩ := togglesReset_of_mem h hx
  rw [his.edit]
  exact Edit.editsOnce_withEdge hlocks he hfree ⟨render_toggledReset_ne hu htoggled, rfl⟩

theorem render_assigned_ne {text name : String} {u mutated : Update} {n : Int}
    (hu : Update.ofText text = .ok u) (hother : assigned? u name ≠ some (Text.ofInt n))
    (hassign : u.assign name (Text.ofInt n) = .ok mutated) : mutated.render ≠ text := by
  have hblank : ∀ char ∈ (Text.ofInt n).toList, Text.isBlank char = false :=
    fun char => Text.isBlank_of_mem_ofInt
  refine Update.render_assign_ne hu hassign (Text.ofInt_ne_nil n) hblank ?_
  intro old hold hread
  have htarget : old.target = name := by simpa using List.find?_some hold
  have hname := Update.equals_not_mem_target hu (List.mem_of_find?_eq_some hold)
  have hvalue := Assignment.value_of_ofText hread (htarget ▸ hname) hblank
  exact hother (by rw [assigned?, hold, Option.map_some, hvalue])

theorem editsOnce_of_valueChanges (hlocks : c.refreshLocks = c) (h : c.valueChanges = .ok found)
    (hx : x ∈ found) : EditsOnce c .changeVarUpdate (x.edit.apply c) := by
  obtain ⟨he, hfree, hu, -, -, hother, hassign, his⟩ := assignsValue_of_mem h hx
  rw [his.edit]
  exact Edit.editsOnce_withEdge hlocks he hfree ⟨render_assigned_ne hu hother hassign, rfl⟩

end Component

/-- Whatever an operator finds in a component whose locks are up to date, the mutant is another
component of the same name and declarations. It differs by one edit of the class, its locks are up
to date, and every locked edge is where it was. -/
theorem mutant_is_one_edit {c : Component} (hlocks : c.refreshLocks = c) {m : MutationClass}
    {found : List Mutation} (hfound : m.mutations c = .ok found) {x : Mutation} (hx : x ∈ found) :
    (x.testCase c).mutant ≠ c ∧ (x.testCase c).mutant.name = c.name ∧
      (x.testCase c).mutant.declarations = c.declarations ∧
      EditsOnce c m (x.testCase c).mutant ∧
      (x.testCase c).mutant.refreshLocks = (x.testCase c).mutant ∧
      ∀ (i : ℕ) (e : Edge), c.edges[i]? = some e → e.locked = true →
        (x.testCase c).mutant.edges[i]? = some e := by
  have honce : EditsOnce c m (x.testCase c).mutant := by
    cases m with
    | changeSource =>
      cases hfound
      exact Component.editsOnce_of_mem_sourceChanges hlocks hx
    | changeTarget =>
      cases hfound
      exact Component.editsOnce_of_mem_targetChanges hlocks hx
    | changeGuardOpClocks =>
      exact Component.editsOnce_of_comparisonChanges hlocks (.inl rfl) hfound hx
    | changeGuardOpLocals =>
      exact Component.editsOnce_of_comparisonChanges hlocks (.inr rfl) hfound hx
    | changeGuardConstant => exact Component.editsOnce_of_constantChanges hlocks hfound hx
    | invertReset => exact Component.editsOnce_of_resetChanges hlocks hfound hx
    | changeInvariant => exact Component.editsOnce_of_boundChanges hfound hx
    | changeActionInputs =>
      cases hfound
      exact Component.editsOnce_of_mem_actionChanges hlocks hx
    | changeActionOutputs =>
      cases hfound
      exact Component.editsOnce_of_mem_actionChanges hlocks hx
    | changeVarUpdate => exact Component.editsOnce_of_valueChanges hlocks hfound hx
    | sinkLocation =>
      cases hfound
      exact Component.editsOnce_of_mem_sinkRedirections hlocks hx
  refine ⟨honce.ne, honce.name_eq, honce.declarations_eq, honce, ?_, fun i e he => honce.locked_kept he⟩
  exact x.edit.refreshLocks_apply hlocks

/-- The constant in the guard of a lamp that goes out after five units of time, one greater. -/
theorem mutant_of_guarded_lamp :
    let off : Edge :=
      { source := "Lit", target := "Idle", direction := .output, sync := "off", guard := "t>=5" }
    let lamp := { Lamp.component with edges := [off] }
    let x := Component.guardChange .changeGuardConstant off 0 "0_inc" "t>=6"
    lamp.refreshLocks = lamp ∧
      (x.testCase lamp).mutant = { lamp with edges := [{ off with guard := "t>=6" }] } ∧
      EditsOnce lamp .changeGuardConstant (x.testCase lamp).mutant := by
  intro off lamp x
  let x' := Component.guardChange .changeGuardConstant off 0 "0_dec" "t>=4"
  have hlocks : lamp.refreshLocks = lamp := rfl
  have hliterals : integerLiterals off.guard = [⟨['t', '>', '='], ['5'], [], 5⟩] := by
    have hchars : "t>=5".toList = ['t', '>', '=', '5'] := rfl
    change integerLiterals "t>=5" = _
    simp [integerLiterals, hchars, literalsFrom, Decimal.isDigit, gluesBefore, isNameChar,
      Decimal.digitsValue, Text.natFrom?, Text.digitValue?, Text.isWord64, Text.wordLimit]
  have hfound : MutationClass.changeGuardConstant.mutations lamp = .ok [x, x'] := by
    have hunlocked : lamp.unlockedEdges = [(off, 0)] := rfl
    simp only [MutationClass.mutations, Component.constantChanges, Component.atUnlockedEdges,
      hunlocked, List.mapM_cons, List.mapM_nil, hliterals]
    rfl
  obtain ⟨-, -, -, honce, -⟩ := mutant_is_one_edit hlocks hfound (List.mem_cons_self)
  exact ⟨hlocks, rfl, honce⟩
end TimedMutation
