import TimedMutation.Document.Basic
import TimedMutation.Plan.Basic

/-! Results, scores and reports as documents. -/

namespace TimedMutation

def Snapshot.toDocument (s : Snapshot) : Document :=
  .record [("location", .text s.location),
    ("clocks", .record (s.clocks.entries.map fun (name, x) => (name, .real x))),
    ("locals", .record (s.locals.entries.map fun (name, n) => (name, .integer n)))]

def TestResult.toDocument (r : TestResult) : Document :=
  .record [("id", .text r.id), ("verdict", .text r.verdict.name), ("reason", .text r.reason.message),
    ("steps", .count r.steps), ("test_model", r.test.toDocument), ("mutant", r.mutant.toDocument),
    ("trace", .texts r.path)]

def CaseOutcome.toDocument (o : CaseOutcome) : Document :=
  .record ([("case_id", .text o.caseId), ("class", .text o.operator.code)] ++
    match o.status with
    | .completed result => [("status", .text "completed"), ("result", result.toDocument)]
    | .errored message => [("status", .text "errored"), ("message", .text message)])

/-- The tally of one class. -/
def Tally.toDocument (t : Tally) : Document :=
  .record [("total", .count t.total), ("killed", .count t.killed),
    ("inconclusive", .count t.inconclusive), ("score", .real t.ratio)]

def MutationScore.toDocument (s : MutationScore) : Document :=
  .record [("total_mutants", .count s.overall.total), ("killed", .count s.overall.killed),
    ("survived", .count s.survived), ("inconclusive", .count s.overall.inconclusive),
    ("score", .real s.ratio),
    ("by_class", .record (s.byClass.map fun (m, tally) => (m.code, tally.toDocument)))]

/-- The report of a plan that took `duration` milliseconds. -/
def PlanReport.toDocument (r : PlanReport) (duration : Nat) : Document :=
  .record [("outcomes", .list (r.outcomes.map CaseOutcome.toDocument)),
    ("score", r.score.toDocument), ("errors", .count r.errors), ("skipped", .count r.skipped),
    ("stopped", .bool r.stopped), ("duration_ms", .count duration)]

end TimedMutation
