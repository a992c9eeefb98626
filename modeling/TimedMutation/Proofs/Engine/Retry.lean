import Mathlib.Data.Nat.Find
import Mathlib.Order.Bounds.Basic
import Mathlib.Order.MinMax
import TimedMutation.Engine.Retry

/-! The calls that a run with retries makes. A run over a sequence of outcomes is recorded step by step;
it goes on from an outcome exactly if that is a failure that may pass and a retry is left. -/

namespace TimedMutation

/-- What a run with retries does. -/
inductive RetryStep where
  | call (attempt : ℕ)
  | pause (milliseconds : ℕ)
  deriving DecidableEq, Repr

def RetryStep.attempt? : RetryStep → Option ℕ
  | call attempt => some attempt
  | pause _ => none

namespace RetryPolicy

variable {α : Type}

/-- Whether an outcome is a success or a failure that stays. -/
def settles : Except EngineError α → Bool
  | .ok _ => true
  | .error e => !e.isRetryable

def recordedPause (milliseconds : ℕ) : StateM (List RetryStep) Unit :=
  modify (· ++ [.pause milliseconds])

def recordedCall (outcomes : ℕ → Except EngineError α) (attempt : ℕ) :
    StateM (List RetryStep) (Except EngineError α) := do
  modify (· ++ [.call attempt])
  return outcomes attempt

/-- The outcome of a run whose attempts have the outcomes of a sequence, and its steps in order. -/
def record (p : RetryPolicy) (outcomes : ℕ → Except EngineError α) :
    Except EngineError α × List RetryStep :=
  (p.run recordedPause (recordedCall outcomes)).run []

/-! ### One attempt -/

section Attempt

variable {p : RetryPolicy} {outcomes : ℕ → Except EngineError α} {attempt : ℕ}

theorem run_recordedPause (milliseconds : ℕ) (log : List RetryStep) :
    (recordedPause milliseconds).run log = ((), log ++ [.pause milliseconds]) := rfl

theorem run_recordedCall (log : List RetryStep) :
    (recordedCall outcomes attempt).run log = (outcomes attempt, log ++ [.call attempt]) := rfl

theorem runFrom_last {left : ℕ} (h : left = 0 ∨ settles (outcomes attempt) = true)
    (log : List RetryStep) :
    (p.runFrom recordedPause (recordedCall outcomes) left attempt).run log =
      (outcomes attempt, log ++ [.call attempt]) := by
  rw [runFrom, StateT.run_bind, run_recordedCall]
  cases hreply : outcomes attempt with
  | ok a => rfl
  | error e =>
    cases left with
    | zero => rfl
    | succ left =>
      have hstays : e.isRetryable = false := by simpa [hreply, settles] using h
      change StateT.run (if e.isRetryable = true then _ else _ : StateM (List RetryStep) _) _ = _
      rw [if_neg (by simp [hstays])]
      rfl

theorem runFrom_retried (h : settles (outcomes attempt) = false) (left : ℕ) (log : List RetryStep) :
    (p.runFrom recordedPause (recordedCall outcomes) (left + 1) attempt).run log =
      (p.runFrom recordedPause (recordedCall outcomes) left (attempt + 1)).run
        (log ++ [.call attempt, .pause (p.wait attempt)]) := by
  rw [runFrom, StateT.run_bind, run_recordedCall]
  cases hreply : outcomes attempt with
  | ok a => simp [hreply, settles] at h
  | error e =>
    have hpasses : e.isRetryable = true := by simpa [hreply, settles] using h
    change StateT.run (if e.isRetryable = true then _ else _ : StateM (List RetryStep) _) _ = _
    rw [if_pos hpasses, StateT.run_bind, run_recordedPause, ← List.append_cons]
    rfl

end Attempt

/-! ### The run -/

/-- The steps of an attempt and the retries after it: every call but the last is followed by the wait
for the next one. -/
def stepsFrom (p : RetryPolicy) (attempt : ℕ) : (retries : ℕ) → List RetryStep
  | 0 => [.call attempt]
  | retries + 1 => .call attempt :: .pause (p.wait attempt) :: p.stepsFrom (attempt + 1) retries

theorem attempts_stepsFrom (p : RetryPolicy) (attempt retries : ℕ) :
    (p.stepsFrom attempt retries).filterMap RetryStep.attempt? =
      List.range' attempt (retries + 1) := by
  induction retries generalizing attempt with
  | zero => rfl
  | succ retries ih =>
    rw [List.range'_succ, ← ih (attempt + 1)]
    rfl

theorem runFrom_stepsFrom {p : RetryPolicy} {outcomes : ℕ → Except EngineError α}
    {left retries attempt : ℕ} (hleft : retries ≤ left)
    (hretried : ∀ k < retries, settles (outcomes (attempt + k)) = false)
    (hlast : retries = left ∨ settles (outcomes (attempt + retries)) = true)
    (log : List RetryStep) :
    (p.runFrom recordedPause (recordedCall outcomes) left attempt).run log =
      (outcomes (attempt + retries), log ++ p.stepsFrom attempt retries) := by
  induction retries generalizing left attempt log with
  | zero => exact runFrom_last (hlast.imp_left Eq.symm) log
  | succ retries ih =>
    obtain ⟨left, rfl⟩ := Nat.exists_eq_add_of_le' (Nat.one_le_of_lt hleft)
    have hfirst : settles (outcomes attempt) = false := hretried 0 (by omega)
    have hshift : ∀ k, attempt + 1 + k = attempt + (k + 1) := by omega
    rw [runFrom_retried hfirst, ih (by omega), hshift]
    · simp [stepsFrom]
    · intro k hk
      rw [hshift]
      exact hretried (k + 1) (by omega)
    · rw [hshift]
      exact hlast.imp_left (by omega)

/-- The last attempt of a run: all before it are to be retried, and it settles or no retry is left. -/
structure LastAttempt (p : RetryPolicy) (outcomes : ℕ → Except EngineError α) (last : ℕ) : Prop where
  le : last ≤ p.maxRetries
  retried : ∀ k < last, settles (outcomes k) = false
  ends : last = p.maxRetries ∨ settles (outcomes last) = true

theorem LastAttempt.record_eq {p : RetryPolicy} {outcomes : ℕ → Except EngineError α} {last : ℕ}
    (h : p.LastAttempt outcomes last) :
    p.record outcomes = (outcomes last, p.stepsFrom 0 last) := by
  have hsteps : (p.runFrom recordedPause (recordedCall outcomes) p.maxRetries 0).run [] =
      (outcomes (0 + last), [] ++ p.stepsFrom 0 last) :=
    runFrom_stepsFrom h.le (by simpa using h.retried) (by simpa using h.ends) []
  rw [Nat.zero_add, List.nil_append] at hsteps
  exact hsteps

theorem lastAttempt_of_isLeast {p : RetryPolicy} {outcomes : ℕ → Except EngineError α} {i : ℕ}
    (h : IsLeast {k | settles (outcomes k) = true} i) :
    p.LastAttempt outcomes (min i p.maxRetries) where
  le := min_le_right _ _
  retried k hk := by
    by_contra hsettles
    have hle : i ≤ k := h.2 (by simpa using hsettles)
    omega
  ends := by
    rcases min_choice i p.maxRetries with hmin | hmin
    · rw [hmin]
      exact .inr h.1
    · exact .inl hmin

/-- A run calls attempts from zero on, each once, up to the first that settles, or up to the last that
the policy allows where none settles before. It answers what the last call answers. -/
theorem run_until_settled (p : RetryPolicy) (outcomes : ℕ → Except EngineError α) :
    ∃ last,
      ((∃ i, IsLeast {k | settles (outcomes k) = true} i ∧ last = min i p.maxRetries) ∨
        (∀ k, settles (outcomes k) = false) ∧ last = p.maxRetries) ∧
      p.record outcomes = (outcomes last, p.stepsFrom 0 last) ∧
      (p.record outcomes).2.filterMap RetryStep.attempt? = List.range (last + 1) := by
  have hattempts : ∀ {last}, p.LastAttempt outcomes last →
      p.record outcomes = (outcomes last, p.stepsFrom 0 last) ∧
        (p.record outcomes).2.filterMap RetryStep.attempt? = List.range (last + 1) := by
    intro last hlast
    refine ⟨hlast.record_eq, ?_⟩
    rw [hlast.record_eq, attempts_stepsFrom, List.range_eq_range']
  by_cases hsettles : ∃ i, settles (outcomes i) = true
  · have hfirst : IsLeast {k | settles (outcomes k) = true} (Nat.find hsettles) :=
      ⟨Nat.find_spec hsettles, fun k hk => Nat.find_min' hsettles hk⟩
    exact ⟨_, .inl ⟨_, hfirst, rfl⟩, hattempts (lastAttempt_of_isLeast hfirst)⟩
  · have hnever : ∀ k, settles (outcomes k) = false := by simpa using hsettles
    exact ⟨_, .inr ⟨hnever, rfl⟩, hattempts ⟨le_rfl, fun k _ => hnever k, .inl rfl⟩⟩

end RetryPolicy
end TimedMutation
