import TimedMutation.Mutation.Catalogue

/-! How many mutants a run told from the component under test. -/

namespace TimedMutation

/-- The outcome of replaying a strategy against a component and its mutant. -/
inductive Verdict where
  | inconclusive
  | pass
  | fail
  deriving DecidableEq, Repr

namespace Verdict

def name : Verdict → String
  | inconclusive => "INCONCLUSIVE"
  | pass => "PASS"
  | fail => "FAIL"

def ofName? (s : String) : Option Verdict := [inconclusive, pass, fail].find? fun v => v.name == s

theorem ofName?_name (v : Verdict) : ofName? v.name = some v := by cases v <;> decide

/-- A mutant is killed by a deviation. -/
def kills (v : Verdict) : Bool := v == fail

end Verdict

/-- The verdict on one mutant. -/
structure MutantResult where
  id : String
  operator : MutationClass
  verdict : Verdict
  deriving DecidableEq, Repr

/-- The share of killed mutants among those that were decided; one if none was. -/
def killedShare (killed decided : Nat) : Float :=
  if decided = 0 then 1.0 else Float.ofNat killed / Float.ofNat decided

/-- The number of some mutants, and how many of them were killed and how many not decided. -/
structure Tally where
  total : Nat
  killed : Nat
  inconclusive : Nat
  deriving DecidableEq, Repr

namespace Tally

def ofResults (results : List MutantResult) : Tally where
  total := results.length
  killed := results.countP fun r => r.verdict.kills
  inconclusive := results.countP fun r => r.verdict == .inconclusive

def ratio (t : Tally) : Float := killedShare t.killed (t.total - t.inconclusive)

@[simp] theorem total_ofResults (results : List MutantResult) :
    (ofResults results).total = results.length := rfl

end Tally

/-- The tally of all mutants and of the mutants of each class that has any. -/
structure MutationScore where
  overall : Tally
  /-- The mutants that were decided and not killed. -/
  survived : Nat
  byClass : List (MutationClass × Tally)
  deriving DecidableEq, Repr

namespace MutationScore

def ofResults (results : List MutantResult) : MutationScore where
  overall := Tally.ofResults results
  survived :=
    let t := Tally.ofResults results
    t.total - t.killed - t.inconclusive
  byClass := MutationClass.all.filterMap fun m =>
    let own := results.filter fun r => r.operator == m
    if own.isEmpty then none else some (m, Tally.ofResults own)

def ratio (s : MutationScore) : Float :=
  killedShare s.overall.killed (s.overall.killed + s.survived)

end MutationScore

end TimedMutation
