import Mathlib.Algebra.BigOperators.Group.List.Basic
import Mathlib.Algebra.Ring.Nat
import Mathlib.Data.List.Nodup
import Mathlib.Data.List.Perm.Basic
import TimedMutation.Mutation.Score

/-! A score counts every result once: by its verdict, and by its class. What is subtracted is never more
than what it is subtracted from, and the order of the results does not matter. -/

namespace TimedMutation

variable {results results' : List MutantResult} {m : MutationClass}

/-! ### By verdict -/

namespace Tally

theorem killed_add_passed_add_inconclusive (results : List MutantResult) :
    (ofResults results).killed + (results.countP fun r => r.verdict == .pass) +
      (ofResults results).inconclusive = results.length := by
  induction results with
  | nil => rfl
  | cons r rs ih =>
    simp only [ofResults, Verdict.kills, List.countP_cons, List.length_cons] at ih ⊢
    cases r.verdict <;> simp <;> omega

theorem ofResults_perm (h : results.Perm results') : ofResults results = ofResults results' := by
  simp only [ofResults, h.length_eq, h.countP_eq]

end Tally

/-! ### By class -/

namespace MutationScore

/-- Each result is counted in the class that it has. -/
theorem sum_countP_ofClass (q : MutantResult → Bool) (results : List MutantResult) :
    (MutationClass.all.map fun m =>
      (results.filter fun r => r.operator == m).countP q).sum = results.countP q := by
  induction results with
  | nil => simp
  | cons r rs ih =>
    have hcons : ∀ m, ((r :: rs).filter fun r => r.operator == m).countP q =
        (if r.operator = m ∧ q r then 1 else 0) +
          (rs.filter fun r => r.operator == m).countP q := by
      intro m
      by_cases hm : r.operator = m <;> by_cases hq : q r <;> simp [hm, hq, Nat.add_comm]
    have hone : (MutationClass.all.map fun m => if r.operator = m ∧ q r then 1 else 0).sum =
        if q r then 1 else 0 := by
      rw [List.sum_map_eq_nsmul_single r.operator,
        List.count_eq_one_of_mem MutationClass.nodup_all (MutationClass.mem_all _)]
      · simp
      · intro m hm _
        simp [Ne.symm hm]
    simp only [hcons, List.sum_map_add, hone, ih, List.countP_cons, Nat.add_comm]

/-- The classes that some result has, each with the tally of its results. -/
theorem byClass_ofResults (results : List MutantResult) :
    (ofResults results).byClass =
      (MutationClass.all.filter fun m => results.any fun r => r.operator == m).map fun m =>
        (m, Tally.ofResults (results.filter fun r => r.operator == m)) := by
  rw [← List.filterMap_eq_map, List.filterMap_filter]
  refine List.filterMap_congr fun m _ => ?_
  cases hany : results.any fun r => r.operator == m with
  | false =>
    have hnone : results.filter (fun r => r.operator == m) = [] := by simpa using hany
    simp [hnone]
  | true =>
    have hsome : results.filter (fun r => r.operator == m) ≠ [] := by simpa using hany
    simp [hsome]

theorem classes_ofResults (results : List MutantResult) :
    (ofResults results).byClass.map Prod.fst =
      MutationClass.all.filter fun m => results.any fun r => r.operator == m := by
  rw [byClass_ofResults, List.map_map]
  exact List.map_id _

theorem mem_classes : m ∈ (ofResults results).byClass.map Prod.fst ↔ ∃ r ∈ results, r.operator = m := by
  simp [classes_ofResults, MutationClass.mem_all]

theorem nodup_classes (results : List MutantResult) :
    ((ofResults results).byClass.map Prod.fst).Nodup := by
  rw [classes_ofResults]
  exact MutationClass.nodup_all.filter _

/-- A class that does not occur has nothing to add. -/
theorem sum_occurring (q : MutantResult → Bool) (results : List MutantResult)
    (classes : List MutationClass) :
    ((classes.filter fun m => results.any fun r => r.operator == m).map fun m =>
      (results.filter fun r => r.operator == m).countP q).sum =
      (classes.map fun m => (results.filter fun r => r.operator == m).countP q).sum := by
  induction classes with
  | nil => rfl
  | cons m classes ih =>
    cases hany : results.any fun r => r.operator == m with
    | false =>
      have hnone : results.filter (fun r => r.operator == m) = [] := by simpa using hany
      simp [hany, hnone, ih]
    | true => simp [hany, ih]

/-- What a tally counts adds up over the entries. -/
theorem sum_byClass {f : Tally → ℕ} {q : MutantResult → Bool}
    (hf : ∀ results, f (Tally.ofResults results) = results.countP q) (results : List MutantResult) :
    ((ofResults results).byClass.map fun e => f e.2).sum = f (ofResults results).overall := by
  calc ((ofResults results).byClass.map fun e => f e.2).sum
      = ((MutationClass.all.filter fun m => results.any fun r => r.operator == m).map fun m =>
          (results.filter fun r => r.operator == m).countP q).sum := by
        rw [byClass_ofResults, List.map_map]
        simp only [Function.comp_def, hf]
    _ = results.countP q := by rw [sum_occurring, sum_countP_ofClass]
    _ = f (ofResults results).overall := (hf results).symm

theorem ofResults_perm (h : results.Perm results') : ofResults results = ofResults results' := by
  have htally := Tally.ofResults_perm h
  have hclasses : ∀ m, (results.any fun r => r.operator == m) =
      results'.any fun r => r.operator == m := fun m => h.any_eq
  have hbyClass : (ofResults results).byClass = (ofResults results').byClass := by
    simp only [byClass_ofResults, hclasses, Tally.ofResults_perm (h.filter _)]
  simp only [ofResults, htally] at hbyClass ⊢
  rw [hbyClass]

/-- The verdicts partition the results, and so do the classes: the entries are for the classes that
occur, and their numbers add up to the overall ones. Nothing that is subtracted is too great, and
results in another order have the same score. -/
theorem score_partitions (results : List MutantResult) :
    let s := MutationScore.ofResults results
    (s.overall.total = results.length ∧
      s.overall.killed + s.survived + s.overall.inconclusive = s.overall.total ∧
      s.survived = results.countP fun r => r.verdict == .pass) ∧
    (s.overall.killed ≤ s.overall.total ∧
      s.overall.inconclusive ≤ s.overall.total - s.overall.killed ∧
      ∀ e ∈ s.byClass, e.2.inconclusive ≤ e.2.total) ∧
    ((s.byClass.map Prod.fst).Nodup ∧
      ∀ m, m ∈ s.byClass.map Prod.fst ↔ ∃ r ∈ results, r.operator = m) ∧
    ((s.byClass.map fun e => e.2.total).sum = s.overall.total ∧
      (s.byClass.map fun e => e.2.killed).sum = s.overall.killed ∧
      (s.byClass.map fun e => e.2.inconclusive).sum = s.overall.inconclusive) ∧
    ∀ results', results'.Perm results → MutationScore.ofResults results' = s := by
  intro s
  have hverdicts := Tally.killed_add_passed_add_inconclusive results
  have htotal : s.overall.total = results.length := rfl
  have hsurvived : s.survived = s.overall.total - s.overall.killed - s.overall.inconclusive := rfl
  change s.overall.killed + _ + s.overall.inconclusive = _ at hverdicts
  have hdecided : ∀ e ∈ s.byClass, e.2.inconclusive ≤ e.2.total := by
    intro e he
    rw [byClass_ofResults] at he
    obtain ⟨m, -, rfl⟩ := List.mem_map.mp he
    exact List.countP_le_length
  exact ⟨⟨htotal, by omega, by omega⟩, ⟨by omega, by omega, hdecided⟩,
    ⟨nodup_classes results, fun m => mem_classes⟩,
    ⟨sum_byClass (fun _ => congrFun List.countP_true.symm _) results, sum_byClass (fun _ => rfl) results,
      sum_byClass (fun _ => rfl) results⟩,
    fun _ hperm => ofResults_perm hperm⟩

end MutationScore

end TimedMutation
