import TimedMutation.Engine.Error

/-! Repeating engine calls that fail. -/

namespace TimedMutation

structure RetryPolicy where
  /-- Calls after the first one. -/
  maxRetries : Nat := 2
  /-- The wait before the first retry in milliseconds; it doubles with every further retry. -/
  backoff : Nat := 100
  deriving DecidableEq, Repr

namespace RetryPolicy

/-- The policy that never calls twice. -/
def none : RetryPolicy := ⟨0, 0⟩

/-- The longest wait in milliseconds. -/
def longestWait : Nat := 5000

/-- The wait before a retry in milliseconds. The doubling stops at the sixteenth retry and the
product is held within 64 bits; the longest wait is below both limits. -/
def wait (p : RetryPolicy) (retry : Nat) : Nat :=
  min (min (p.backoff * Nat.pow 2 (min retry 16)) (Text.countLimit - 1)) longestWait

variable {m : Type → Type} [Monad m] {α : Type}

/-- The calls from attempt number `attempt` on, with at most `left` retries. -/
def runFrom (p : RetryPolicy) (pause : Nat → m Unit) (call : Nat → m (Except EngineError α)) :
    (left attempt : Nat) → m (Except EngineError α)
  | left, attempt => do
    match ← call attempt with
    | .ok a => return .ok a
    | .error e =>
      match left with
      | 0 => return .error e
      | left + 1 =>
        if e.isRetryable then
          pause (p.wait attempt)
          p.runFrom pause call left (attempt + 1)
        else return .error e

/-- Call until a call succeeds, fails for good or was the last one. A call learns the number of its
attempt, from zero. -/
def run (p : RetryPolicy) (pause : Nat → m Unit) (call : Nat → m (Except EngineError α)) :
    m (Except EngineError α) :=
  p.runFrom pause call p.maxRetries 0

end RetryPolicy

end TimedMutation
