import Mathlib.Data.List.Perm.Basic
import TimedMutation.Plan.Basic
import TimedMutation.Proofs.Outcome

/-! Engines that a pool lends and gets back: none is lost and none is lent twice, whatever is called
through the leases. -/

namespace TimedMutation
namespace Pool

variable {p q : Pool} {limit e : ℕ} {held held' engines : List ℕ}

theorem acquire_eq_ok : p.acquire limit = .ok (e, q) ↔ p = q.release e := by
  obtain ⟨capacity, idle⟩ := p
  obtain ⟨capacity', idle'⟩ := q
  cases idle with
  | nil => simp [acquire, acquire?, release]
  | cons e' idle =>
    simp only [acquire, acquire?, release, Except.ok.injEq, Prod.mk.injEq, Pool.mk.injEq,
      List.cons.injEq]
    tauto

theorem acquire_eq_error {failure : EngineError} :
    p.acquire limit = .error failure ↔ p.idle = [] ∧ failure = .exhausted limit := by
  obtain ⟨capacity, idle⟩ := p
  cases idle with
  | nil => simp [acquire, acquire?, eq_comm]
  | cons e' idle => simp [acquire, acquire?]

/-- The engines of a pool are those that are idle and those that are held. -/
structure Lends (p : Pool) (held engines : List ℕ) : Prop where
  same : (p.idle ++ held).Perm engines
  capacity : p.capacity = engines.length

theorem lends_idle (h : p.available = p.capacity) : p.Lends [] p.idle where
  same := by rw [List.append_nil]
  capacity := h.symm

theorem Lends.perm (h : p.Lends held engines) (hheld : held.Perm held') : p.Lends held' engines where
  same := (hheld.symm.append_left p.idle).trans h.same
  capacity := h.capacity

theorem Lends.acquire (h : p.Lends held engines) (hlease : p.acquire limit = .ok (e, q)) :
    q.Lends (e :: held) engines := by
  obtain rfl := acquire_eq_ok.mp hlease
  exact ⟨List.perm_middle.trans h.same, h.capacity⟩

theorem Lends.release (h : p.Lends (e :: held) engines) : (p.release e).Lends held engines where
  same := List.perm_middle.symm.trans h.same
  capacity := h.capacity

theorem Lends.available_add (h : p.Lends held engines) : p.available + held.length = p.capacity := by
  rw [h.capacity, ← h.same.length_eq, List.length_append, available]

/-- A pool that has lent fewer engines than it has can lend another one. -/
theorem Lends.exists_acquire (h : p.Lends held engines) (hheld : held.length < p.capacity)
    (limit : ℕ) : ∃ e q, p.acquire limit = .ok (e, q) := by
  have hcount := h.available_add
  cases hlease : p.acquire limit with
  | ok lease => exact ⟨lease.1, lease.2, rfl⟩
  | error failure =>
    have hnone : p.available = 0 := by
      rw [available, (acquire_eq_error.mp hlease).1, List.length_nil]
    omega

end Pool

/-! ### Leases -/

/-- A pool and the live leases on it, each as the engine that it holds, the latest first. -/
structure Lending where
  pool : Pool
  leases : List ℕ

/-- What the users of a pool do. A lease is named by its place among the live ones. -/
inductive PoolEvent where
  /-- Ask for an engine and wait for at most so many milliseconds. -/
  | acquire (limit : ℕ)
  /-- Have the engine of a lease find a strategy, as often as a plan tries. -/
  | synthesize (lease : ℕ) (p : Plan) (c : TestCase)
  | drop (lease : ℕ)

namespace Lending

variable {σ : Type}

def happen (engine : Engine (StateM σ)) (l : Lending) : PoolEvent → StateM σ Lending
  | .acquire limit =>
    match l.pool.acquire limit with
    | .ok (e, pool) => return ⟨pool, e :: l.leases⟩
    | .error _ => return l
  | .synthesize lease p c => do
    if lease < l.leases.length then
      let _ ← p.synthesize engine c
    return l
  | .drop lease =>
    match l.leases[lease]? with
    | some e => return ⟨l.pool.release e, l.leases.eraseIdx lease⟩
    | none => return l

/-- The state after events in their order. -/
def perform (engine : Engine (StateM σ)) (l : Lending) (events : List PoolEvent) :
    StateM σ Lending :=
  events.foldlM (happen engine) l

variable {engine : Engine (StateM σ)} {l : Lending} {engines : List ℕ}

theorem happen_acquire_error {limit : ℕ} {failure : EngineError}
    (h : l.pool.acquire limit = .error failure) (w : σ) :
    (l.happen engine (.acquire limit)).run w = (l, w) := by
  simp only [happen, h]
  rfl

theorem lends_happen (h : l.pool.Lends l.leases engines) (e : PoolEvent) (w : σ) :
    ((l.happen engine e).run w).1.pool.Lends ((l.happen engine e).run w).1.leases engines := by
  cases e with
  | acquire limit =>
    cases hlease : l.pool.acquire limit with
    | ok lease =>
      simp only [happen, hlease]
      exact h.acquire hlease
    | error failure =>
      rw [happen_acquire_error hlease]
      exact h
  | synthesize lease p c =>
    have hsame : ((l.happen engine (.synthesize lease p c)).run w).1 = l := by
      simp only [happen]
      split <;> rfl
    rw [hsame]
    exact h
  | drop lease =>
    cases hlease : l.leases[lease]? with
    | some e =>
      simp only [happen, hlease]
      obtain ⟨hlt, rfl⟩ := List.getElem?_eq_some_iff.mp hlease
      exact (h.perm (List.getElem_cons_eraseIdx_perm hlt).symm).release
    | none =>
      simp only [happen, hlease]
      exact h

/-- Whatever the users of a pool do, its engines are the idle ones and those of live leases. -/
theorem lends_perform (engine : Engine (StateM σ)) (h : l.pool.Lends l.leases engines)
    (events : List PoolEvent) (w : σ) :
    ((l.perform engine events).run w).1.pool.Lends ((l.perform engine events).run w).1.leases
      engines := by
  induction events generalizing l w with
  | nil => exact h
  | cons e events ih => exact ih (lends_happen h e w) ((l.happen engine e).run w).2

end Lending

/-! ### Calls -/

/-- What every call answers is what the calls with retries answer. -/
theorem RetryPolicy.run_of_calls {σ α : Type} (answers : Except EngineError α → Prop)
    (policy : RetryPolicy) (pause : ℕ → StateM σ Unit)
    {call : ℕ → StateM σ (Except EngineError α)}
    (hcall : ∀ attempt w, answers ((call attempt).run w).1) (w : σ) :
    answers ((policy.run pause call).run w).1 := by
  have hfrom : ∀ left attempt w, answers ((policy.runFrom pause call left attempt).run w).1 := by
    intro left
    induction left with
    | zero =>
      intro attempt w
      have hanswer := hcall attempt w
      rw [runFrom, StateT.run_bind]
      generalize (call attempt).run w = reply at hanswer
      obtain ⟨answer, w'⟩ := reply
      cases answer <;> exact hanswer
    | succ left ih =>
      intro attempt w
      have hanswer := hcall attempt w
      rw [runFrom, StateT.run_bind]
      generalize (call attempt).run w = reply at hanswer
      obtain ⟨answer, w'⟩ := reply
      cases answer with
      | ok a => exact hanswer
      | error failure =>
        change answers (StateT.run
          (if failure.isRetryable = true then _ else _ : StateM σ (Except EngineError α)) w').1
        split
        · exact ih (attempt + 1) _
        · exact hanswer
  exact hfrom policy.maxRetries 0 w

end TimedMutation
