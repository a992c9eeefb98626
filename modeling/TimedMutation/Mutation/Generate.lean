import TimedMutation.Mutation.Perturb
import TimedMutation.Mutation.Rewire

/-! The mutations of a component, class by class, and how many there can be. -/

namespace TimedMutation

namespace MutationClass

/-- The mutations that the operator of a class finds, in a fixed order. -/
def mutations (c : Component) : MutationClass → Except MutationError (List Mutation)
  | changeSource => .ok c.sourceChanges
  | changeTarget => .ok c.targetChanges
  | changeGuardOpClocks => c.comparisonChanges .changeGuardOpClocks true Comparison.forClocks
  | changeGuardOpLocals => c.comparisonChanges .changeGuardOpLocals false Comparison.all
  | changeGuardConstant => c.constantChanges
  | invertReset => c.resetChanges
  | changeInvariant => c.boundChanges
  | changeActionInputs => .ok (c.actionChanges .input)
  | changeActionOutputs => .ok (c.actionChanges .output)
  | changeVarUpdate => c.valueChanges
  | sinkLocation => .ok c.sinkRedirections

/-- The number of parts of a guard or an invariant that pass a test; none if it has no parts that
can be told. -/
def partCount (text : String) (test : String → Bool) : Nat :=
  match Conjunction.ofText text with
  | .ok conjunction => conjunction.parts.countP test
  | .error _ => 0

/-- The sum of what is counted at each item. -/
def total {α : Type} (count : α → Nat) : List α → Nat
  | [] => 0
  | a :: rest => count a + total count rest

/-- The number of guard parts of unlocked edges that are about clocks, or of those that are not. -/
def guardPartCount (c : Component) (aboutClocks : Bool) : Nat :=
  total (fun (e, _) => partCount e.guard fun part => c.isClockPart part == aboutClocks)
    c.unlockedEdges

/-- The number of mutations of a class, if `hasExactBound`, and else a number that they do not
exceed. A count of values of locals is held within 64 bits. -/
def upperBound (c : Component) : MutationClass → Nat
  | changeSource => c.unlockedEdges.length * (c.ordinaryLocations.length - 1)
  | changeTarget => c.unlockedEdges.length * (c.locations.length - 1)
  | changeGuardOpClocks => Comparison.forClocks.length * guardPartCount c true
  | changeGuardOpLocals => (Comparison.all.length - 1) * guardPartCount c false
  | changeGuardConstant =>
    total (fun (e, _) => 2 * (integerLiterals e.guard).length) c.unlockedEdges
  | invertReset => c.unlockedEdges.length * c.declarations.clocks.length
  | changeInvariant => total (fun l => partCount l.invariant fun _ => true) c.ordinaryLocations
  | changeActionInputs => c.unlockedEdges.length * c.declarations.inputs.length
  | changeActionOutputs => c.unlockedEdges.length * c.declarations.outputs.length
  | changeVarUpdate =>
    let values := min (total Local.rangeSize c.declarations.locals) (Text.countLimit - 1)
    min (c.unlockedEdges.length * values) (Text.countLimit - 1)
  | sinkLocation => c.unlockedEdges.length

def hasExactBound : MutationClass → Bool
  | changeSource | changeTarget | changeGuardConstant | changeInvariant | sinkLocation => true
  | changeGuardOpClocks | changeGuardOpLocals | invertReset | changeActionInputs
  | changeActionOutputs | changeVarUpdate => false

end MutationClass

namespace Component

/-- The mutations of the selected classes in the order of the catalogue. A class whose operator
fails has none. -/
def mutations (c : Component) (selected : List MutationClass) : List Mutation :=
  (MutationClass.inOrder selected).flatMap fun m =>
    match m.mutations c with
    | .ok found => found
    | .error _ => []

/-- The test cases of the selected classes. -/
def testCases (c : Component) (selected : List MutationClass) : List TestCase :=
  (c.mutations selected).map fun m => m.testCase c

end Component

end TimedMutation
