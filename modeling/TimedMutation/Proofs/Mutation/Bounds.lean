import Mathlib.Algebra.BigOperators.Ring.List
import Mathlib.Algebra.Order.BigOperators.Group.List
import Mathlib.Algebra.Order.Ring.Nat
import TimedMutation.Proofs.Mutation.Found

/-! The advertised numbers of mutations. Every operator finds what it finds place by place, so that
a bound for each place adds up to a bound for the class. -/

namespace TimedMutation
namespace MutationClass

/-! ### Sums -/

section

variable {α β ε : Type} {count bound : α → ℕ} {size : β → ℕ} {xs : List α} {ys : List β}

theorem total_eq_sum (count : α → ℕ) (xs : List α) : total count xs = (xs.map count).sum := by
  induction xs with
  | nil => rfl
  | cons x xs ih => rw [total, ih, List.map_cons, List.sum_cons]

theorem total_le_of_forall₂ (h : List.Forall₂ (fun x y => size y ≤ bound x) xs ys) :
    total size ys ≤ total bound xs := by
  rw [total_eq_sum, total_eq_sum]
  exact List.Forall₂.sum_le_sum
    (List.forall₂_map_left_iff.mpr (List.forall₂_map_right_iff.mpr h.flip))

theorem total_eq_of_forall₂ (h : List.Forall₂ (fun x y => size y = bound x) xs ys) :
    total size ys = total bound xs :=
  Nat.le_antisymm (total_le_of_forall₂ (h.imp fun _ _ => Nat.le_of_eq))
    (total_le_of_forall₂ (h.flip.imp fun _ _ heq => Nat.le_of_eq (Eq.symm heq)))

theorem total_le_total (h : ∀ x ∈ xs, count x ≤ bound x) : total count xs ≤ total bound xs :=
  total_le_of_forall₂ (List.forall₂_same.mpr h)

theorem total_congr (h : ∀ x ∈ xs, count x = bound x) : total count xs = total bound xs :=
  total_eq_of_forall₂ (List.forall₂_same.mpr h)

theorem total_const (k : ℕ) (xs : List α) : total (fun _ => k) xs = xs.length * k := by
  rw [total_eq_sum, List.map_const', List.sum_replicate_nat]

theorem total_mul (k : ℕ) (count : α → ℕ) (xs : List α) :
    total (fun x => k * count x) xs = k * total count xs := by
  rw [total_eq_sum, total_eq_sum, List.sum_map_mul_left]

theorem total_map (size : β → ℕ) (f : α → β) (xs : List α) :
    total size (xs.map f) = total (fun x => size (f x)) xs := by
  rw [total_eq_sum, total_eq_sum, List.map_map]
  rfl

theorem count_le_total (count : α → ℕ) {x : α} (h : x ∈ xs) : count x ≤ total count xs := by
  rw [total_eq_sum]
  exact List.le_sum_of_mem (List.mem_map_of_mem h)

theorem length_flatMap (f : α → List β) (xs : List α) :
    (xs.flatMap f).length = total (fun x => (f x).length) xs := by
  rw [List.length_flatMap, total_eq_sum]

theorem length_mapM {f : α → Except ε β} (h : xs.mapM f = .ok ys) : ys.length = xs.length :=
  (forall₂_of_mapM h).length_eq.symm

theorem length_flatten_le {f : α → Except ε (List β)} {lists : List (List β)}
    (h : xs.mapM f = .ok lists) (hf : ∀ x ys, f x = .ok ys → ys.length ≤ bound x) :
    lists.flatten.length ≤ total bound xs := by
  rw [List.length_flatten, ← total_eq_sum]
  exact total_le_of_forall₂ ((forall₂_of_mapM h).imp hf)

theorem length_flatten_eq {f : α → Except ε (List β)} {lists : List (List β)}
    (h : xs.mapM f = .ok lists) (hf : ∀ x ys, f x = .ok ys → ys.length = bound x) :
    lists.flatten.length = total bound xs := by
  rw [List.length_flatten, ← total_eq_sum]
  exact total_eq_of_forall₂ ((forall₂_of_mapM h).imp hf)

theorem filter_zipIdx (p : α → Bool) (xs : List α) :
    ((xs.zipIdx.filter fun x => p x.1).map Prod.fst) = xs.filter p := by
  conv_rhs => rw [← List.zipIdx_map_fst 0 xs, List.filter_map]
  rfl

theorem length_filter_zipIdx (p : α → Bool) (xs : List α) :
    (xs.zipIdx.filter fun x => p x.1).length = xs.countP p := by
  rw [List.countP_eq_length_filter, ← filter_zipIdx p xs, List.length_map]

end

end MutationClass

namespace Component

open MutationClass

variable {c : Component} {found : List Mutation}

theorem length_atUnlockedEdges_le {find : Edge → ℕ → Except MutationError (List Mutation)}
    {bound : Edge × ℕ → ℕ} (h : c.atUnlockedEdges find = .ok found)
    (hfind : ∀ e i xs, find e i = .ok xs → xs.length ≤ bound (e, i)) :
    found.length ≤ total bound c.unlockedEdges := by
  obtain ⟨lists, hlists, h⟩ := bind_eq_ok.mp h
  rw [← pure_eq_ok.mp h]
  exact length_flatten_le hlists fun (a : Edge × ℕ) xs hxs => hfind a.1 a.2 xs hxs

theorem length_atUnlockedEdges_eq {find : Edge → ℕ → Except MutationError (List Mutation)}
    {bound : Edge × ℕ → ℕ} (h : c.atUnlockedEdges find = .ok found)
    (hfind : ∀ e i xs, find e i = .ok xs → xs.length = bound (e, i)) :
    found.length = total bound c.unlockedEdges := by
  obtain ⟨lists, hlists, h⟩ := bind_eq_ok.mp h
  rw [← pure_eq_ok.mp h]
  exact length_flatten_eq hlists fun (a : Edge × ℕ) xs hxs => hfind a.1 a.2 xs hxs

/-! ### Names -/

/-- Where ids are unique, all locations but one have another id than that one. -/
theorem length_filter_id_ne {ls : List Location} (hids : (ls.map (·.id)).Nodup) {id : String}
    (h : id ∈ ls.map (·.id)) : (ls.filter fun l => l.id != id).length = ls.length - 1 := by
  have hone : ls.countP (fun l => l.id == id) = 1 := by
    rw [← List.count_eq_one_of_mem hids h, List.count, List.countP_map]
    rfl
  have hall := List.length_eq_countP_add_countP (fun l : Location => l.id == id) (l := ls)
  have hnot : ls.countP (fun l => l.id != id) = ls.countP (fun l => !(l.id == id)) := rfl
  rw [← List.countP_eq_length_filter, hnot]
  simp only [decide_not, Bool.decide_eq_true] at hall
  omega

/-- An edge that is not locked starts at a location that completion did not add. -/
theorem source_mem_ordinary (hc : c.WellFormed) (hlocks : c.refreshLocks = c) {e : Edge}
    (he : e ∈ c.edges) (hfree : e.locked = false) :
    e.source ∈ c.ordinaryLocations.map (·.id) := by
  have hlock := congrArg Edge.locked (refreshLocks_eq_iff.mp hlocks e he)
  simp only [relock, hfree, Bool.or_eq_false_iff, isCompletionId, List.any_eq_false,
    Bool.and_eq_true, beq_iff_eq, not_and] at hlock
  obtain ⟨l, hl, hid⟩ := List.any_eq_true.mp (hc.ends e he).1
  have hid : l.id = e.source := by simpa using hid
  have hkind : ¬ l.kind.isCompletion = true := fun hkind => hlock.1 l hl hkind hid
  rw [← hid]
  exact List.mem_map_of_mem (List.mem_filter.mpr ⟨hl, by simpa using hkind⟩)

theorem length_sourceChanges (hc : c.WellFormed) (hlocks : c.refreshLocks = c) :
    c.sourceChanges.length = c.unlockedEdges.length * (c.ordinaryLocations.length - 1) := by
  rw [sourceChanges, length_flatMap, ← total_const]
  refine total_congr ?_
  rintro ⟨e, i⟩ he
  obtain ⟨he, hfree⟩ := mem_unlockedEdges.mp he
  rw [List.length_map]
  refine length_filter_id_ne ?_ (source_mem_ordinary hc hlocks (List.mem_of_getElem? he) hfree)
  exact hc.uniqueIds.sublist (List.filter_sublist.map _)

theorem length_targetChanges (hc : c.WellFormed) :
    c.targetChanges.length = c.unlockedEdges.length * (c.locations.length - 1) := by
  rw [targetChanges, length_flatMap, ← total_const]
  refine total_congr ?_
  rintro ⟨e, i⟩ he
  obtain ⟨he, -⟩ := mem_unlockedEdges.mp he
  rw [List.length_map]
  refine length_filter_id_ne hc.uniqueIds ?_
  simpa [hasLocation] using (hc.ends e (List.mem_of_getElem? he)).2

theorem length_actionChanges_le (direction : Direction) :
    (c.actionChanges direction).length ≤
      c.unlockedEdges.length * (c.declarations.labels direction).length := by
  rw [actionChanges, length_flatMap, ← total_const]
  refine total_le_total ?_
  rintro ⟨e, i⟩ -
  rw [List.length_map]
  exact List.length_filter_le _ _

theorem length_sinkRedirections : c.sinkRedirections.length = c.unlockedEdges.length :=
  List.length_map _

/-! ### Guards and invariants -/

theorem partCount_of_ofText {text : String} {conjunction : Conjunction}
    (h : Conjunction.ofText text = .ok conjunction) (test : String → Bool) :
    partCount text test = conjunction.parts.countP test := by
  simp only [partCount, h]

theorem length_partChanges_le {operator : MutationClass} {candidates : List Comparison} {k : ℕ}
    (hk : ∀ op, (candidates.filter fun op' => op' != op).length ≤ k) {e : Edge} {i place : ℕ}
    {guard : Conjunction} {part : String}
    (h : partChanges operator candidates e i guard part place = .ok found) : found.length ≤ k := by
  obtain ⟨relation, -, h⟩ := bind_eq_ok.mp h
  rw [← pure_eq_ok.mp h, List.length_map]
  exact hk relation.op

theorem length_comparisonChanges_le {operator : MutationClass} {aboutClocks : Bool}
    {candidates : List Comparison} {k : ℕ}
    (hk : ∀ op, (candidates.filter fun op' => op' != op).length ≤ k)
    (h : c.comparisonChanges operator aboutClocks candidates = .ok found) :
    found.length ≤ k * guardPartCount c aboutClocks := by
  rw [guardPartCount, ← total_mul]
  refine length_atUnlockedEdges_le h fun e i xs hxs => ?_
  obtain ⟨guard, hguard, hxs⟩ := bind_eq_ok.mp hxs
  rw [inMutation_eq_ok] at hguard
  obtain ⟨lists, hlists, hxs⟩ := bind_eq_ok.mp hxs
  dsimp only
  rw [← pure_eq_ok.mp hxs, partCount_of_ofText hguard, ← length_filter_zipIdx, Nat.mul_comm,
    ← total_const]
  exact length_flatten_le hlists fun _ ys hys => length_partChanges_le hk hys

theorem length_constantChanges (h : c.constantChanges = .ok found) :
    found.length = total (fun (e, _) => 2 * (integerLiterals e.guard).length) c.unlockedEdges := by
  refine length_atUnlockedEdges_eq h fun e i xs hxs => ?_
  obtain ⟨lists, hlists, hxs⟩ := bind_eq_ok.mp hxs
  dsimp only
  rw [← pure_eq_ok.mp hxs, ← List.length_zipIdx (l := integerLiterals e.guard), Nat.mul_comm,
    ← total_const]
  exact length_flatten_eq hlists fun _ ys hys => length_mapM hys

theorem length_boundChanges (h : c.boundChanges = .ok found) :
    found.length = total (fun l => partCount l.invariant fun _ => true) c.ordinaryLocations := by
  obtain ⟨lists, hlists, h⟩ := bind_eq_ok.mp h
  rw [← pure_eq_ok.mp h, ordinaryLocations, ← filter_zipIdx, total_map]
  refine length_flatten_eq hlists ?_
  rintro ⟨l, i⟩ xs hxs
  obtain ⟨invariant, hinvariant, hxs⟩ := bind_eq_ok.mp hxs
  rw [inMutation_eq_ok] at hinvariant
  rw [length_mapM hxs, List.length_zipIdx, partCount_of_ofText hinvariant, List.countP_true]

/-! ### Updates -/

theorem length_resetChanges (h : c.resetChanges = .ok found) :
    found.length = c.unlockedEdges.length * c.declarations.clocks.length := by
  rw [← total_const]
  refine length_atUnlockedEdges_eq h fun e i xs hxs => ?_
  obtain ⟨u, -, hxs⟩ := bind_eq_ok.mp hxs
  exact length_mapM hxs

theorem length_valueChanges_le (h : c.valueChanges = .ok found) :
    found.length ≤
      c.unlockedEdges.length * total (fun l => l.values.length) c.declarations.locals := by
  rw [← total_const]
  refine length_atUnlockedEdges_le h fun e i xs hxs => ?_
  obtain ⟨u, -, hxs⟩ := bind_eq_ok.mp hxs
  obtain ⟨lists, hlists, hxs⟩ := bind_eq_ok.mp hxs
  rw [← pure_eq_ok.mp hxs]
  refine length_flatten_le hlists fun l ys hys => ?_
  calc ys.length = ((l.values.map Text.ofInt).filter _).length := length_mapM hys
    _ ≤ (l.values.map Text.ofInt).length := List.length_filter_le _ _
    _ = l.values.length := List.length_map _

end Component

namespace MutationClass

variable {c : Component} {m : MutationClass} {found : List Mutation}

/-- Sizes of ranges that add up to less than 64 bits hold are the numbers of values. -/
theorem total_rangeSize {locals : List Local}
    (h : total Local.rangeSize locals < Text.countLimit - 1) :
    total Local.rangeSize locals = total (fun l => l.values.length) locals := by
  refine total_congr fun l hl => ?_
  have hsize := (count_le_total Local.rangeSize hl).trans_lt h
  simp only [Local.rangeSize, Local.values, List.length_map, List.length_range] at hsize ⊢
  omega

theorem upperBound_changeVarUpdate
    (h : MutationClass.changeVarUpdate.upperBound c < Text.countLimit - 1) :
    MutationClass.changeVarUpdate.upperBound c =
      c.unlockedEdges.length * total (fun l => l.values.length) c.declarations.locals := by
  rcases Nat.eq_zero_or_pos c.unlockedEdges.length with hzero | hpos
  · simp [upperBound, hzero]
  · simp only [upperBound] at h ⊢
    have hvalues := Nat.le_mul_of_pos_left
      (min (total Local.rangeSize c.declarations.locals) (Text.countLimit - 1)) hpos
    have hsum : total Local.rangeSize c.declarations.locals < Text.countLimit - 1 := by omega
    rw [← total_rangeSize hsum]
    rw [Nat.min_eq_left hsum.le] at h ⊢
    omega

/-- A class with an exact bound has that number of mutations in every valid component whose locks
are up to date, and no class has more than its bound, if the bound is a number and not the end of
64 bits. -/
theorem length_mutations (hc : c.validate = .ok ()) (hlocks : c.refreshLocks = c)
    (hfound : m.mutations c = .ok found) :
    ((m = .changeVarUpdate → m.upperBound c < Text.countLimit - 1) →
      found.length ≤ m.upperBound c) ∧
    (m.hasExactBound = true → found.length = m.upperBound c) ∧
    (m.hasExactBound = true ↔
      m ∈ [changeSource, changeTarget, changeGuardConstant, changeInvariant, sinkLocation]) := by
  have hwell := Component.validate_eq_ok_iff.mp hc
  have hexact : m.hasExactBound = true → found.length = m.upperBound c := by
    intro hm
    cases m with
    | changeSource =>
      cases hfound
      exact Component.length_sourceChanges hwell hlocks
    | changeTarget =>
      cases hfound
      exact Component.length_targetChanges hwell
    | changeGuardConstant => exact Component.length_constantChanges hfound
    | changeInvariant => exact Component.length_boundChanges hfound
    | sinkLocation =>
      cases hfound
      exact Component.length_sinkRedirections
    | changeGuardOpClocks | changeGuardOpLocals | invertReset | changeActionInputs
    | changeActionOutputs | changeVarUpdate => simp [hasExactBound] at hm
  refine ⟨fun hvalues => ?_, hexact, by cases m <;> decide⟩
  cases m with
  | changeSource | changeTarget | changeGuardConstant | changeInvariant | sinkLocation =>
    exact (hexact rfl).le
  | changeGuardOpClocks =>
    exact Component.length_comparisonChanges_le (fun op => List.length_filter_le _ _) hfound
  | changeGuardOpLocals =>
    exact Component.length_comparisonChanges_le (fun op => by cases op <;> decide) hfound
  | invertReset => exact (Component.length_resetChanges hfound).le
  | changeActionInputs =>
    cases hfound
    exact Component.length_actionChanges_le .input
  | changeActionOutputs =>
    cases hfound
    exact Component.length_actionChanges_le .output
  | changeVarUpdate =>
    rw [upperBound_changeVarUpdate (hvalues rfl)]
    exact Component.length_valueChanges_le hfound

/-- A lamp that may break has as many mutants with another source as advertised: neither the edge to
the location that completion added nor that location counts. -/
theorem length_mutations_breaking_lamp :
    let broken : Location := { id := "Broken", kind := .inconsistent }
    let breaking : Edge :=
      { source := "Lit", target := "Broken", direction := .input, sync := "press", locked := true }
    let lamp := { Lamp.component with
      locations := Lamp.component.locations ++ [broken]
      edges := Lamp.component.edges ++ [breaking] }
    lamp.validate = .ok () ∧ lamp.refreshLocks = lamp ∧
      (∃ found, changeSource.mutations lamp = .ok found ∧ found.length = 2) ∧
      ∃ found, changeActionInputs.mutations lamp = .ok found ∧ found.length ≤ 2 := by
  intro broken breaking lamp
  have hvalid : lamp.validate = .ok () := rfl
  have hlocks : lamp.refreshLocks = lamp := rfl
  obtain ⟨-, hsources, -⟩ := length_mutations hvalid hlocks (m := .changeSource) rfl
  obtain ⟨hinputs, -, -⟩ := length_mutations hvalid hlocks (m := .changeActionInputs) rfl
  exact ⟨hvalid, hlocks, ⟨_, rfl, hsources rfl⟩, _, rfl, hinputs (by simp)⟩

end MutationClass
end TimedMutation
