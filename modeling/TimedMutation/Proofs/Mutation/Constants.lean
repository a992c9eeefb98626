import TimedMutation.Proofs.Guard.Literals
import TimedMutation.Proofs.Mutation.Found
import TimedMutation.Proofs.Mutation.SingleEdit
import TimedMutation.Proofs.Mutation.Validity

/-! Mutants in which a constant of a guard is shifted. Each whole number of the guard has two of them,
one greater and one less. -/

namespace TimedMutation

/-! ### The mutations of one edge -/

namespace Component

variable {c : Component} {e : Edge} {i : ℕ} {found : List Mutation}

/-- Of what is found in one search after another, each with an edge of its own, the part with one edge
is what one search found. -/
theorem filter_flatten (find : Edge → ℕ → Except MutationError (List Mutation))
    (hedge : ∀ {e i xs}, find e i = .ok xs → ∀ x ∈ xs, x.edit.edge? = some i)
    {edges : List (Edge × ℕ)} {lists : List (List Mutation)}
    (h : List.Forall₂ (fun edge xs => find edge.1 edge.2 = .ok xs) edges lists)
    (hnodup : (edges.map (·.2)).Nodup) (hmem : (e, i) ∈ edges) :
    find e i = .ok (lists.flatten.filter fun x => x.edit.edge? == some i) := by
  have hother : ∀ {edges : List (Edge × ℕ)} {lists : List (List Mutation)},
      List.Forall₂ (fun edge xs => find edge.1 edge.2 = .ok xs) edges lists →
      i ∉ edges.map (·.2) → lists.flatten.filter (fun x => x.edit.edge? == some i) = [] := by
    intro edges lists h hi
    induction h with
    | nil => rfl
    | @cons edge xs edges lists hfirst _ ih =>
      simp only [List.map_cons, List.mem_cons, not_or] at hi
      rw [List.flatten_cons, List.filter_append, ih hi.2, List.append_nil, List.filter_eq_nil_iff]
      intro x hx
      simp [hedge hfirst x hx, Ne.symm hi.1]
  induction h with
  | nil => cases hmem
  | @cons edge xs edges lists hfirst hrest ih =>
    rw [List.map_cons, List.nodup_cons] at hnodup
    rw [List.flatten_cons, List.filter_append]
    rcases List.mem_cons.mp hmem with rfl | hmem
    · have hall : xs.filter (fun x => x.edit.edge? == some i) = xs := by
        rw [List.filter_eq_self]
        intro x hx
        simp [hedge hfirst x hx]
      rw [hall, hother hrest hnodup.1, List.append_nil, hfirst]
    · have hi : edge.2 ≠ i := by
        rintro rfl
        exact hnodup.1 (List.mem_map.mpr ⟨_, hmem, rfl⟩)
      have hnone : xs.filter (fun x => x.edit.edge? == some i) = [] := by
        rw [List.filter_eq_nil_iff]
        intro x hx
        simp [hedge hfirst x hx, hi]
      rw [hnone, List.nil_append]
      exact ih hnodup.2 hmem

theorem nodup_unlockedEdges (c : Component) : (c.unlockedEdges.map (·.2)).Nodup := by
  have hsub := (List.filter_sublist (p := fun e : Edge × ℕ => !e.1.locked)
    (l := c.edges.zipIdx)).map (·.2)
  rw [List.zipIdx_map_snd] at hsub
  exact hsub.nodup List.nodup_range'

/-- What is found at one unlocked edge is the part of all that is found with this edge. -/
theorem filter_atUnlockedEdges {find : Edge → ℕ → Except MutationError (List Mutation)}
    (hedge : ∀ {e i xs}, find e i = .ok xs → ∀ x ∈ xs, x.edit.edge? = some i)
    (h : c.atUnlockedEdges find = .ok found) (he : c.edges[i]? = some e) (hfree : e.locked = false) :
    find e i = .ok (found.filter fun x => x.edit.edge? == some i) := by
  obtain ⟨lists, hlists, h⟩ := bind_eq_ok.mp h
  cases pure_eq_ok.mp h
  have hall : List.Forall₂ (fun edge xs => find edge.1 edge.2 = .ok xs) c.unlockedEdges lists :=
    forall₂_of_mapM hlists
  exact filter_flatten find hedge hall c.nodup_unlockedEdges (mem_unlockedEdges.mpr ⟨he, hfree⟩)

end Component

namespace Mutation

/-- The mutation writes an integer for a whole number in the guard of an edge. The guard is read, and
its tree is the same but for this number. -/
inductive Rewrites (x : Mutation) (c : Component) (i : ℕ) (text : String) (tree : Expr)
    (l : IntegerLiteral) (m : Int) : Prop
  | intro {e' : Edge} {front back : List Token} {place : Expr.Place}
      (stands : l.StandsIn text.toList front back)
      (leaf : place.numbersBefore = front.countP Token.isNumber)
      (original : tree = place.fill (.ofInt l.value))
      (edge : (x.testCase c).mutant.edges[i]? = some e') (edit : x.edit = .guard i e'.guard)
      (mutated : Expr.ofText e'.guard = .ok (place.fill (.ofInt m)))

variable {c : Component} {e : Edge} {i : ℕ} {x : Mutation} {l : IntegerLiteral}

theorem rewrites_of_edit (he : c.edges[i]? = some e) {tree : Expr}
    (htree : Expr.ofText e.guard = .ok tree) {front back : List Token}
    (hl : l.StandsIn e.guard.toList front back) {m : Int}
    (hedit : x.edit = .guard i (l.replacedBy (Text.ofInt m))) :
    x.Rewrites c i e.guard tree l m := by
  obtain ⟨place, hplace, horiginal, hmutated⟩ := Expr.ofText_replacedBy htree hl
  let e' := c.relock { e with guard := l.replacedBy (Text.ofInt m) }
  have he' : (x.testCase c).mutant.edges[i]? = some e' := by
    rw [Mutation.testCase, hedit]
    exact Component.getElem?_withEdge he fun e => { e with guard := l.replacedBy (Text.ofInt m) }
  exact .intro hl hplace horiginal he' hedit (hmutated m)

end Mutation

/-! ### Two mutations for each number -/

namespace Component

variable {c : Component} {e : Edge} {i : ℕ} {found : List Mutation}

/-- The numbers of a guard with the steps by which they are shifted. -/
def shiftedLiterals (guard : String) : List (IntegerLiteral × Int) :=
  (integerLiterals guard).flatMap fun l => [(l, 1), (l, -1)]

/-- Every number of a guard is shifted in both directions, edge by edge. -/
theorem constantChanges_eq (c : Component) :
    ∃ find, c.constantChanges = c.atUnlockedEdges find ∧
      ∀ {e : Edge} {i : ℕ} {xs : List Mutation}, find e i = .ok xs →
        List.Forall₂ (fun (shift : IntegerLiteral × Int) x =>
          x.edit = .guard i (shift.1.replacedBy (Text.ofInt (shift.1.value + shift.2))))
          (shiftedLiterals e.guard) xs := by
  refine ⟨_, rfl, ?_⟩
  intro e i xs h
  obtain ⟨lists, hlists, h⟩ := bind_eq_ok.mp h
  cases pure_eq_ok.mp h
  have hliterals : integerLiterals e.guard = (integerLiterals e.guard).zipIdx.map (·.1) :=
    (List.zipIdx_map_fst 0 _).symm
  rw [shiftedLiterals, hliterals, List.flatMap_map]
  refine List.rel_flatten (List.forall₂_map_left_iff.mpr ((forall₂_of_mapM hlists).imp ?_))
  rintro ⟨l, place⟩ ys hys
  have hshifts : [(l, (1 : Int)), (l, -1)] = shifts.map fun shift => (l, shift.1) := rfl
  simp only [hshifts, List.forall₂_map_left_iff]
  refine (forall₂_of_mapM hys).imp fun ⟨step, name⟩ x hx => ?_
  dsimp only at hx
  split at hx
  · cases hx
    rfl
  · cases hx

/-- Of the mutations that are found, those of one edge are the shifts of the numbers of its guard. -/
theorem constantChanges_at (h : c.constantChanges = .ok found) (he : c.edges[i]? = some e)
    (hfree : e.locked = false) :
    List.Forall₂ (fun (shift : IntegerLiteral × Int) x =>
      x.edit = .guard i (shift.1.replacedBy (Text.ofInt (shift.1.value + shift.2))))
      (shiftedLiterals e.guard) (found.filter fun x => x.edit.edge? == some i) := by
  obtain ⟨find, hfind, hshifts⟩ := c.constantChanges_eq
  rw [hfind] at h
  refine hshifts (filter_atUnlockedEdges (fun hxs x hx => ?_) h he hfree)
  obtain ⟨shift, -, hedit⟩ := exists_of_mem_right (hshifts hxs) hx
  rw [hedit]
  rfl

end Component

/-- At an unlocked edge with a guard that is read as an expression, the mutants with a shifted constant
are two for each number token without a point that 64 bits hold, from left to right. Their guards have
the same tree but for this number, which is one greater in the first and one less in the second. -/
theorem constant_mutants_shift_literals {c : Component} {e : Edge} {i : ℕ} {found : List Mutation}
    {tree : Expr} (hfound : MutationClass.changeGuardConstant.mutations c = .ok found)
    (he : c.edges[i]? = some e) (hfree : e.locked = false) (htree : Expr.ofText e.guard = .ok tree) :
    ∃ literals : List IntegerLiteral,
      literals.Pairwise (fun l m => l.before.length < m.before.length) ∧
      (∀ l, l ∈ literals ↔
        Text.isWord64 l.value = true ∧ ∃ front back, l.StandsIn e.guard.toList front back) ∧
      List.Forall₂ (fun (shift : IntegerLiteral × Int) x =>
          x.Rewrites c i e.guard tree shift.1 (shift.1.value + shift.2))
        (literals.flatMap fun l => [(l, 1), (l, -1)])
        (found.filter fun x => x.edit.edge? == some i) := by
  refine ⟨integerLiterals e.guard, pairwise_literalsFrom [] e.guard.toList,
    fun l => mem_integerLiterals htree, ?_⟩
  have hshifts := Component.constantChanges_at hfound he hfree
  have hstands : ∀ shift ∈ Component.shiftedLiterals e.guard,
      ∃ front back, shift.1.StandsIn e.guard.toList front back := by
    intro shift hshift
    obtain ⟨l, hl, hmem⟩ := List.mem_flatMap.mp hshift
    have hfirst : shift.1 = l := by
      rcases List.mem_pair.mp hmem with rfl | rfl <;> rfl
    rw [hfirst]
    exact ((mem_integerLiterals htree).mp hl).2
  refine ((List.forall₂_and_left _ _).mpr ⟨hstands, hshifts⟩).imp ?_
  rintro shift x ⟨⟨front, back, hl⟩, hedit⟩
  exact Mutation.rewrites_of_edit he htree hl hedit

/-- A lamp that goes out when some time has passed. -/
def Lamp.fading : Component :=
  { Lamp.component with
    declarations := { Lamp.component.declarations with clocks := ["t"] }
    edges := [
      { source := "Lit", target := "Idle", direction := .output, sync := "off", guard := "t>0" }] }

namespace Lamp

/-- The number in the guard of the lamp. -/
def zero : IntegerLiteral := ⟨['t', '>'], ['0'], [], 0⟩

theorem standsIn_zero :
    zero.StandsIn "t>0".toList [.name "t", .compare .gt] [] := by
  have hname : Token.Spells (.name "t") ['t'] := .name rfl rfl
  have hgreater : Token.Spells (.compare .gt) ['>'] := .symbol rfl
  have hdigit : Token.Spells (.number (Decimal.Numeral.toFloat ⟨Decimal.digitsValue ['0'], 0⟩)) ['0'] :=
    .whole (by simp) (by simp; decide)
  exact ⟨rfl, by simp [zero], by simp [zero]; decide, rfl,
    .token hname (by simp; decide) (.of_spells hgreater), .nil,
    .token hname (by simp; decide) (.token hgreater (by simp; decide) (.of_spells hdigit))⟩

theorem integerLiterals_fading : integerLiterals "t>0" = [zero] := by
  have hchars : "t>0".toList = ['t', '>', '0'] := rfl
  have hdigit : literalsFrom ['>', 't'] (['0'] ++ []) = [zero] := by
    rw [literalsFrom_digits (by simp) (by simp; decide) (by simp; decide) (by simp),
      if_pos (by decide), literalsFrom]
    rfl
  rw [integerLiterals, hchars, literalsFrom_other rfl, literalsFrom_other rfl]
  exact hdigit

theorem ofText_fading : Expr.ofText "t>0" =
    .ok (.binary (.compare .gt) (.var "t") (.number 0.0)) := by
  have hvalue : Decimal.Numeral.toFloat ⟨Decimal.digitsValue zero.digits, 0⟩ = 0.0 := rfl
  exact Expr.ofText_eq_ok.mpr ⟨_, hvalue ▸ standsIn_zero.whole, Expr.derives_of_ofTokens rfl⟩

end Lamp

/-- The lamp has a mutant that goes out after the time one, and one that goes out after minus one. -/
theorem constant_mutants_of_fading_lamp :
    ∃ x y, MutationClass.changeGuardConstant.mutations Lamp.fading = .ok [x, y] ∧
      x.Rewrites Lamp.fading 0 "t>0" (.binary (.compare .gt) (.var "t") (.number 0.0)) Lamp.zero 1 ∧
      y.Rewrites Lamp.fading 0 "t>0" (.binary (.compare .gt) (.var "t") (.number 0.0)) Lamp.zero
        (-1) := by
  let off : Edge :=
    { source := "Lit", target := "Idle", direction := .output, sync := "off", guard := "t>0" }
  let x := Component.guardChange .changeGuardConstant off 0 "0_inc" "t>1"
  let y := Component.guardChange .changeGuardConstant off 0 "0_dec" "t>-1"
  have hfound : MutationClass.changeGuardConstant.mutations Lamp.fading = .ok [x, y] := by
    have hunlocked : Lamp.fading.unlockedEdges = [(off, 0)] := rfl
    have hoff : integerLiterals off.guard = [Lamp.zero] := Lamp.integerLiterals_fading
    simp only [MutationClass.mutations, Component.constantChanges, Component.atUnlockedEdges,
      hunlocked, List.mapM_cons, List.mapM_nil, hoff]
    rfl
  have hedge : Lamp.fading.edges[0]? = some off := rfl
  obtain ⟨literals, -, hmem, hshifts⟩ :=
    constant_mutants_shift_literals hfound hedge rfl Lamp.ofText_fading
  have hboth : [x, y].filter (fun x => x.edit.edge? == some 0) = [x, y] := rfl
  rw [hboth] at hshifts
  have hzero : Lamp.zero ∈ literals := (hmem Lamp.zero).mpr ⟨rfl, _, _, Lamp.standsIn_zero⟩
  -- Two mutations are those of one number.
  cases literals with
  | nil => cases hzero
  | cons l rest =>
    cases rest with
    | cons m rest =>
      have hlength := hshifts.length_eq
      simp at hlength
    | nil =>
      cases List.mem_singleton.mp hzero
      obtain ⟨hx, hy, -⟩ := List.forall₂_cons.mp hshifts |>.imp_right List.forall₂_cons.mp
      exact ⟨x, y, hfound, hx, hy⟩

end TimedMutation
