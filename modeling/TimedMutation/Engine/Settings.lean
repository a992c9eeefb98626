import TimedMutation.Engine.Retry

/-! How a plan uses its engines. -/

namespace TimedMutation

structure EngineSettings where
  /-- The number of engines, and the greatest number of workers. -/
  maxConnections : Nat := 4
  /-- How long a worker waits for an idle engine, in milliseconds. -/
  acquireLimit : Nat := 30000
  /-- The longest call that is accepted, in milliseconds. It is looked at when the call returns. -/
  callLimit : Nat := 60000
  retry : RetryPolicy := {}
  deriving DecidableEq, Repr

end TimedMutation
