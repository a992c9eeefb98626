import Mathlib.Data.List.Perm.Basic
import TimedMutation.Proofs.Bindings
import TimedMutation.Proofs.Plan.Events

/-! The report of a plan holds the outcomes of its first cases, in their order, whatever the order in
which the workers stepped. -/

namespace TimedMutation

/-- The number of the case that a worker has. -/
def Worker.index? : Worker → Option ℕ
  | .acquiring i _ | .calling i _ _ | .judging i _ _ | .recording i _ => some i
  | .polling | .taking | .ended => none

/-- The numbers of the cases that were taken: those that workers have, and those with an outcome. -/
def PlanState.taken (s : PlanState) : List ℕ :=
  s.workers.filterMap Worker.index? ++ s.finished.map Prod.fst

namespace Plan

variable {σ : Type} {p : Plan} {engine : Engine (StateM σ)} {s t : PlanState}
  {worker worker' : Worker}

/-! ### The cases that were taken -/

theorem taken_perm {before after : List Worker} (hworkers : s.workers = before ++ worker :: after) :
    s.taken.Perm (worker.index?.toList ++ s.finished.map Prod.fst ++
      (before ++ after).filterMap Worker.index?) := by
  have hperm := (filterMap_workers hworkers Worker.index?).append_right (s.finished.map Prod.fst)
  refine hperm.trans ?_
  rw [List.append_assoc, List.append_assoc]
  exact List.perm_append_comm.append_left _

/-- A move of a worker takes the next case, or hands on the case that the worker has. -/
theorem Moves.taken (hmove : p.Moves engine s worker t worker') {others : List ℕ}
    (h : (worker.index?.toList ++ s.finished.map Prod.fst ++ others).Perm
      (List.range (min s.next p.cases.length))) :
    (worker'.index?.toList ++ t.finished.map Prod.fst ++ others).Perm
      (List.range (min t.next p.cases.length)) := by
  cases hmove with
  | halt | poll | given | acquire | starve | answer | judge | rest => exact h
  | take hcase =>
    obtain ⟨hlt, -⟩ := List.getElem?_eq_some_iff.mp hcase
    have hmin : min s.next p.cases.length = s.next := by omega
    have hmin' : min (s.next + 1) p.cases.length = s.next + 1 := by omega
    rw [hmin] at h
    rw [hmin', List.range_succ]
    exact (List.Perm.cons s.next h).trans (List.perm_append_singleton _ _).symm
  | leave hcase =>
    have hmin : min (s.next + 1) p.cases.length = min s.next p.cases.length := by omega
    rw [hmin]
    exact h
  | record => exact h

theorem Moves.stopped (hmove : p.Moves engine s worker t worker') (h : s.stopped = true) :
    t.stopped = true := by
  cases hmove with
  | record => simp [h]
  | halt | poll | take | leave | given | acquire | starve | answer | judge | rest => exact h

/-- A worker ends where the plan is stopped or no case is left. -/
theorem Moves.ended (hmove : p.Moves engine s worker t .ended) (hworker : worker ≠ .ended) :
    t.stopped = true ∨ p.cases.length ≤ t.next := by
  cases hmove with
  | halt hstopped => exact .inl hstopped
  | leave hcase => exact .inr (Nat.le_succ_of_le hcase)
  | rest => exact absurd rfl hworker

/-- Every case before the next one was taken once, and a worker that has ended knew why. -/
structure Counted (p : Plan) (s : PlanState) : Prop where
  taken : s.taken.Perm (List.range (min s.next p.cases.length))
  ended : Worker.ended ∈ s.workers → s.stopped = true ∨ p.cases.length ≤ s.next

theorem counted_startWith (pool : Pool) (workers : ℕ) :
    p.Counted (p.startWith pool workers) where
  taken := by
    simp [PlanState.taken, startWith, start, Worker.index?, List.filterMap_replicate]
  ended h := by cases List.eq_of_mem_replicate h

theorem Counted.happens {e : PlanEvent} (h : p.Counted s) (hhappens : p.Happens engine s e t) :
    p.Counted t := by
  cases hhappens with
  | nobody => exact h
  | stop => exact ⟨h.taken, fun _ => .inl rfl⟩
  | @work before after worker worker' t hworkers hmove =>
    constructor
    · have htaken := hmove.taken ((taken_perm hworkers).symm.trans h.taken)
      exact (taken_perm (s := { t with workers := before ++ worker' :: after }) rfl).trans htaken
    · intro hended
      change t.stopped = true ∨ p.cases.length ≤ t.next
      by_cases hbefore : Worker.ended ∈ s.workers
      · rcases h.ended hbefore with hstopped | hnext
        · exact .inl (hmove.stopped hstopped)
        · exact .inr (Nat.le_trans hnext hmove.next_le)
      · simp only [hworkers, List.mem_append, List.mem_cons, not_or] at hbefore hended
        obtain ⟨hnone, hworker, hnone'⟩ := hbefore
        have hended : Worker.ended = worker' := by
          rcases hended with hmem | heq | hmem
          · exact absurd hmem hnone
          · exact heq
          · exact absurd hmem hnone'
        subst hended
        exact hmove.ended (Ne.symm hworker)

/-- The flag of a plan that nothing stops is never raised. -/
theorem Happens.not_stopped {e : PlanEvent} (hhappens : p.Happens engine s e t) (he : e ≠ .stop)
    (hstopAfter : p.stopAfter = none) (h : s.stopped = false) : t.stopped = false := by
  cases hhappens with
  | nobody => exact h
  | stop => exact absurd rfl he
  | work hworkers hmove =>
    cases hmove with
    | record => simp [h, hstopAfter]
    | halt | poll | take | leave | given | acquire | starve | answer | judge | rest => exact h

/-! ### The report -/

/-- Values under the numbers from zero on, each number once, are looked up in the order of the
numbers. -/
theorem exists_inOrder {α : Type} {found : List (ℕ × α)} {k n : ℕ} (hk : k ≤ n)
    (h : (found.map Prod.fst).Perm (List.range k)) :
    ∃ sorted : List (ℕ × α), sorted.Perm found ∧ sorted.map Prod.fst = List.range k ∧
      (List.range n).filterMap (fun i => found.lookup i) = sorted.map Prod.snd := by
  have hpairs : List.Forall₂ (fun i (f : ℕ × α) => i = f.1) (found.map Prod.fst) found := by
    rw [List.forall₂_map_left_iff]
    exact List.forall₂_same.mpr fun f _ => rfl
  obtain ⟨sorted, hsorted, hperm⟩ := List.perm_comp_forall₂ h.symm hpairs
  have hnumbers : sorted.map Prod.fst = List.range k := by
    have heq : List.Forall₂ (· = ·) (List.range k) (sorted.map Prod.fst) :=
      List.forall₂_map_right_iff.mpr hsorted
    rw [List.forall₂_eq_eq_eq] at heq
    exact heq.symm
  have hnodup : (found.map Prod.fst).Nodup := h.nodup_iff.mpr List.nodup_range
  have hbelow : (List.range k).filterMap (fun i => found.lookup i) = sorted.map Prod.snd := by
    rw [← hnumbers, List.filterMap_map, ← List.filterMap_eq_map]
    refine List.filterMap_congr fun f hf => ?_
    exact (Bindings.lookup_eq_some_iff hnodup).mpr (hperm.subset hf)
  have habove : ∀ i, k ≤ i → found.lookup i = none := by
    intro i hi
    rw [List.lookup_eq_none_iff]
    intro f hf
    have hlt := List.mem_range.mp (h.subset (List.mem_map_of_mem hf))
    simp only [bne_iff_ne]
    omega
  refine ⟨sorted, hperm, hnumbers, ?_⟩
  obtain ⟨m, rfl⟩ := Nat.exists_eq_add_of_le hk
  have hnone : ((List.range m).map (k + ·)).filterMap (fun i => found.lookup i) = [] := by
    rw [List.filterMap_map]
    exact List.filterMap_eq_nil_iff.mpr fun i _ => habove (k + i) (by omega)
  rw [List.range_add, List.filterMap_append, hbelow, hnone, List.append_nil]

/-- Where each number has a value that belongs to the item at its place, the values belong to the
first items, one by one. -/
theorem forall₂_of_numbers {α β : Type} {r : α → β → Prop} {xs : List α} {found : List (ℕ × β)} {k : ℕ}
    (hnumbers : found.map Prod.fst = List.range k) (hk : k ≤ xs.length)
    (h : ∀ f ∈ found, ∃ x, xs[f.1]? = some x ∧ r x f.2) :
    List.Forall₂ r (xs.take k) (found.map Prod.snd) := by
  have hlength : found.length = k := by
    simpa using congrArg List.length hnumbers
  rw [List.forall₂_iff_get]
  refine ⟨by simp [hlength, hk], fun i hi hi' => ?_⟩
  rw [List.length_map] at hi'
  have hnumber : found[i].1 = i := by
    simpa [hi', hlength ▸ hi'] using congrArg (fun is => is[i]?) hnumbers
  obtain ⟨x, hx, hr⟩ := h found[i] (List.getElem_mem hi')
  rw [hnumber] at hx
  obtain ⟨_, rfl⟩ := List.getElem?_eq_some_iff.mp hx
  simpa using hr

/-- What the counts say once no worker has a case. -/
theorem Counted.finished (h : p.Counted s) (hdone : s.Done) :
    (s.finished.map Prod.fst).Perm (List.range (min s.next p.cases.length)) := by
  have htaken := h.taken
  have hnone : s.workers.filterMap Worker.index? = [] := by
    refine List.filterMap_eq_nil_iff.mpr fun worker hworker => ?_
    rw [hdone worker hworker]
    rfl
  rwa [PlanState.taken, hnone, List.nil_append] at htaken

/-- Where all workers have ended and the plan was not stopped, every case was taken. -/
theorem Counted.all_taken (h : p.Counted s) (hdone : s.Done) (hworkers : 0 < s.workers.length)
    (hstopped : s.stopped = false) : p.cases.length ≤ s.next := by
  obtain ⟨worker, hworker⟩ := List.exists_mem_of_length_pos hworkers
  rcases h.ended (hdone worker hworker ▸ hworker) with hraised | hnext
  · rw [hstopped] at hraised
    cases hraised
  · exact hnext

theorem not_stopped_perform (pool : Pool) (workers : ℕ) {events : List PlanEvent}
    (hstop : .stop ∉ events) (hstopAfter : p.stopAfter = none) (w : σ) :
    ((p.perform engine (p.startWith pool workers) events).run w).1.stopped = false := by
  refine perform_induction (fun s => s.stopped = false) ?_ ?_ w
  · intro e he s t h hhappens
    exact hhappens.not_stopped (fun heq => hstop (heq ▸ he)) hstopAfter h
  · simp [startWith, start, hstopAfter]

/-- Once all workers have ended, the report holds the outcomes of the first cases, each once and in
their order, and accounts for every case; it holds all of them if the plan was never stopped. -/
theorem outcomes_are_prefix (p : Plan) (engine : Engine (StateM σ)) (pool : Pool) {workers : ℕ}
    (hworkers : 1 ≤ workers) (events : List PlanEvent) (w : σ) {s : PlanState}
    (hs : ((p.perform engine (p.startWith pool workers) events).run w).1 = s) (hdone : s.Done) :
    ∃ k ≤ p.cases.length,
      s.finished.Perm ((List.range k).zip (p.report s).outcomes) ∧
      List.Forall₂ (p.Concludes engine True) (p.cases.take k) (p.report s).outcomes ∧
      (p.report s).outcomes.length + (p.report s).skipped = p.cases.length ∧
      (p.report s).errors + (p.report s).score.overall.total = (p.report s).outcomes.length ∧
      (s.stopped = false → k = p.cases.length) ∧
      (p.stopAfter = none → .stop ∉ events → k = p.cases.length) := by
  have hcounted : p.Counted s := by
    rw [← hs]
    exact perform_induction p.Counted (fun _ _ _ _ h hhappens => h.happens hhappens)
      (counted_startWith pool workers) w
  have hsound : p.Sound engine True s := by
    rw [← hs]
    exact perform_induction (p.Sound engine True)
      (fun _ _ _ _ h hhappens => h.happens hhappens fun _ _ _ _ => trivial)
      (sound_startWith pool workers) w
  have hlength : s.workers.length = workers := by
    rw [← hs, length_workers_perform]
  have hall : s.stopped = false → min s.next p.cases.length = p.cases.length := by
    intro hstopped
    exact Nat.min_eq_right (hcounted.all_taken hdone (by omega) hstopped)
  -- The outcomes in the order of their numbers, which are those of the cases that were taken.
  obtain ⟨sorted, hperm, hnumbers, hreport⟩ :=
    exists_inOrder (Nat.min_le_right _ _) (hcounted.finished hdone)
  have houtcomes : (p.report s).outcomes = sorted.map Prod.snd := hreport
  have hconcludes := forall₂_of_numbers hnumbers (Nat.min_le_right _ _)
    fun f hf => hsound.finished f (hperm.subset hf)
  rw [← houtcomes] at hconcludes
  have hcount := hconcludes.length_eq
  have hskipped : (p.report s).skipped = p.cases.length - (p.report s).outcomes.length := rfl
  rw [List.length_take] at hcount
  refine ⟨_, Nat.min_le_right _ _, ?_, hconcludes, by omega, (p.report s).errors_add_total, hall, ?_⟩
  · rw [houtcomes, ← List.zip_of_prod hnumbers rfl]
    exact hperm.symm
  · intro hstopAfter hstop
    apply hall
    rw [← hs]
    exact not_stopped_perform pool workers hstop hstopAfter w

/-- A plan for two lamps that is stopped reports the first of them. -/
theorem outcomes_are_prefix_stopped_lamps :
    Lamp.stopped.Done ∧ Lamp.plan.stopAfter = none ∧
      ∃ k ≤ 2, Lamp.stopped.finished.Perm
          ((List.range k).zip (Lamp.plan.report Lamp.stopped).outcomes) ∧
        List.Forall₂ (Lamp.plan.Concludes Lamp.engine True) (Lamp.plan.cases.take k)
          (Lamp.plan.report Lamp.stopped).outcomes ∧
        (Lamp.plan.report Lamp.stopped).outcomes.length = 1 ∧
        (Lamp.plan.report Lamp.stopped).skipped = 1 := by
  obtain ⟨k, hk, hfinished, hconcludes, -⟩ :=
    outcomes_are_prefix Lamp.plan Lamp.engine (.ofSize 2) (by decide : 1 ≤ 2) Lamp.stoppedEarly 0 rfl
      Lamp.done_stopped
  exact ⟨Lamp.done_stopped, rfl, k, hk, hfinished, hconcludes, rfl, rfl⟩

end Plan

end TimedMutation
