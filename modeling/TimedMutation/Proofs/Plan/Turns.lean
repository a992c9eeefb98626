import Mathlib.Data.List.Count
import TimedMutation.Proofs.Plan.Events

/-! Workers that step often enough end. -/

namespace TimedMutation
namespace Plan

variable {σ : Type} {p : Plan} {engine : Engine (StateM σ)} {s t : PlanState}
  {worker worker' : Worker}

/-- A bound on the steps of a worker until it ends: six for each case that is left, and those until it
looks for the next one. -/
def stepsLeft (p : Plan) (next : ℕ) : Worker → ℕ
  | .ended => 0
  | .taking => 6 * (p.cases.length - next) + 1
  | .polling => 6 * (p.cases.length - next) + 2
  | .recording _ _ => 6 * (p.cases.length - next) + 3
  | .judging _ _ _ => 6 * (p.cases.length - next) + 4
  | .calling _ _ _ => 6 * (p.cases.length - next) + 5
  | .acquiring _ _ => 6 * (p.cases.length - next) + 6

theorem stepsLeft_le {i j : ℕ} (h : i ≤ j) (worker : Worker) :
    p.stepsLeft j worker ≤ p.stepsLeft i worker := by
  cases worker <;> simp only [stepsLeft] <;> omega

theorem eq_ended {next : ℕ} (h : p.stepsLeft next worker = 0) : worker = .ended := by
  cases worker with
  | ended => rfl
  | polling | taking | acquiring | calling | judging | recording =>
    simp only [stepsLeft] at h
    omega

theorem Moves.stepsLeft_le (hmove : p.Moves engine s worker t worker') :
    p.stepsLeft t.next worker' ≤ p.stepsLeft s.next worker - 1 := by
  cases hmove with
  | take hcase =>
    obtain ⟨hlt, -⟩ := List.getElem?_eq_some_iff.mp hcase
    simp only [stepsLeft]
    omega
  | halt | poll | leave | given | acquire | starve | answer | judge | record | rest =>
    simp only [stepsLeft]
    omega

/-- An event brings the worker that it lets step nearer to its end, and no other worker further away
from it. -/
theorem Happens.stepsLeft_le {e : PlanEvent} (hhappens : p.Happens engine s e t) {i : ℕ}
    (hworker : s.workers[i]? = some worker) :
    ∃ worker', t.workers[i]? = some worker' ∧
      p.stepsLeft t.next worker' ≤ p.stepsLeft s.next worker - [e].count (.work i) := by
  cases hhappens with
  | stop => exact ⟨worker, hworker, by simp⟩
  | @nobody number hnumber =>
    have hne : number ≠ i := by
      rintro rfl
      rw [List.getElem?_eq_none hnumber] at hworker
      cases hworker
    exact ⟨worker, hworker, by simp [hne]⟩
  | @work before after mover mover' t hworkers hmove =>
    have hset : before ++ mover' :: after = s.workers.set before.length mover' := by simp [hworkers]
    by_cases hi : before.length = i
    · have hmover : worker = mover := by
        rw [hworkers, ← hi] at hworker
        simpa using hworker.symm
      subst hmover hi
      refine ⟨mover', by simp, ?_⟩
      simpa using hmove.stepsLeft_le
    · refine ⟨worker, ?_, ?_⟩
      · simpa only [hset, List.getElem?_set_ne hi] using hworker
      · simpa [hi] using Plan.stepsLeft_le hmove.next_le worker

/-- So much nearer to its end is a worker after events. -/
theorem stepsLeft_perform (p : Plan) (engine : Engine (StateM σ)) (events : List PlanEvent) (w : σ)
    {i : ℕ} (hworker : s.workers[i]? = some worker) :
    ∃ worker', ((p.perform engine s events).run w).1.workers[i]? = some worker' ∧
      p.stepsLeft ((p.perform engine s events).run w).1.next worker' ≤
        p.stepsLeft s.next worker - events.count (.work i) := by
  induction events generalizing s worker w with
  | nil => exact ⟨worker, hworker, Nat.le_refl _⟩
  | cons e events ih =>
    obtain ⟨next, hnext, hle⟩ := (happens_of_run (w := w)).stepsLeft_le hworker
    obtain ⟨last, hlast, hle'⟩ := ih ((p.happen engine s e).run w).2 hnext
    refine ⟨last, hlast, ?_⟩
    rw [← List.singleton_append, List.count_append]
    exact Nat.le_trans hle' (by omega)

/-- Every worker that steps six times for each case, and twice more, has ended. -/
theorem done_of_count (pool : Pool) (workers : ℕ) {events : List PlanEvent}
    (hevents : ∀ i < workers, 6 * p.cases.length + 2 ≤ events.count (.work i)) (w : σ) :
    ((p.perform engine (p.startWith pool workers) events).run w).1.Done := by
  intro worker hworker
  obtain ⟨i, hi, hget⟩ := List.getElem_of_mem hworker
  rw [length_workers_perform] at hi
  have hstart : (p.startWith pool workers).workers[i]? = some .polling := by
    simp [startWith, hi]
  obtain ⟨last, hlast, hle⟩ := stepsLeft_perform p engine events w hstart
  have hcount := hevents i hi
  have hstepsLeft : p.stepsLeft (p.startWith pool workers).next .polling = 6 * p.cases.length + 2 := rfl
  have hworker : last = worker := by
    rw [List.getElem?_eq_getElem (by rwa [length_workers_perform]), hget] at hlast
    exact (Option.some.inj hlast).symm
  subst hworker
  have hzero : p.stepsLeft ((p.perform engine (p.startWith pool workers) events).run w).1.next last =
      0 := by omega
  exact eq_ended hzero

/-- A run of a plan ends every worker. -/
theorem done_run (pool : Pool) (w : σ) : ((p.run engine pool).run w).1.Done := by
  rw [run_eq_perform]
  refine done_of_count pool _ (fun i hi => ?_) w
  have hcount : (p.turns pool).count i = 6 * p.cases.length + 2 := by
    simp [turns, List.count_flatten, List.count_range, hi]
  have hmap : ((p.turns pool).map PlanEvent.work).count (.work i) = (p.turns pool).count i :=
    List.count_map_of_injective _ _ (fun i j h => by injection h) i
  exact Nat.le_of_eq (hmap.trans hcount).symm

end Plan
end TimedMutation
