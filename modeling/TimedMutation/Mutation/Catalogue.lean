/-! The catalogue of mutation operators. -/

namespace TimedMutation

/-- The kinds of mutants, each made by an operator of its own. -/
inductive MutationClass where
  | changeSource
  | changeTarget
  | changeGuardOpClocks
  | changeGuardOpLocals
  | changeGuardConstant
  | invertReset
  | changeInvariant
  | changeActionInputs
  | changeActionOutputs
  | changeVarUpdate
  | sinkLocation
  deriving DecidableEq, Repr

namespace MutationClass

/-- Every class, in the order in which operators run. -/
def all : List MutationClass :=
  [changeSource, changeTarget, changeGuardOpClocks, changeGuardOpLocals, changeGuardConstant,
    invertReset, changeInvariant, changeActionInputs, changeActionOutputs, changeVarUpdate,
    sinkLocation]

/-- The name of the class in configurations and at the start of the ids of its mutants. -/
def code : MutationClass → String
  | changeSource => "change_source"
  | changeTarget => "change_target"
  | changeGuardOpClocks => "change_guard_op_clocks"
  | changeGuardOpLocals => "change_guard_op_locals"
  | changeGuardConstant => "change_guard_constant"
  | invertReset => "invert_reset"
  | changeInvariant => "change_invariant"
  | changeActionInputs => "change_action_inputs"
  | changeActionOutputs => "change_action_outputs"
  | changeVarUpdate => "change_var_update"
  | sinkLocation => "sink_location"

def description : MutationClass → String
  | changeSource => "Change the source location of an edge"
  | changeTarget => "Change the target location of an edge"
  | changeGuardOpClocks => "Change the operator of a clock guard"
  | changeGuardOpLocals => "Change the operator of a local-variable guard"
  | changeGuardConstant => "Increment or decrement a constant in a guard"
  | invertReset => "Add or remove a clock reset"
  | changeInvariant => "Increment the bound of a location invariant"
  | changeActionInputs => "Change the action of an edge to another input"
  | changeActionOutputs => "Change the action of an edge to another output"
  | changeVarUpdate => "Change the value assigned to a local variable"
  | sinkLocation => "Redirect an edge to a sink location ignoring all inputs"

def ofCode? (code : String) : Option MutationClass := all.find? fun m => m.code == code

/-- The place of the class in the catalogue. -/
def position (m : MutationClass) : Nat := all.idxOf m

theorem mem_all (m : MutationClass) : m ∈ all := by cases m <;> decide

theorem nodup_all : all.Nodup := by decide

theorem ofCode?_code (m : MutationClass) : ofCode? m.code = some m := by cases m <;> decide

theorem code_injective {m n : MutationClass} (h : m.code = n.code) : m = n := by
  have := ofCode?_code m
  rw [h, ofCode?_code] at this
  exact (Option.some.inj this).symm

/-- Each selected class once, in the order of the catalogue. -/
def inOrder (selected : List MutationClass) : List MutationClass :=
  all.filter fun m => selected.contains m

end MutationClass

end TimedMutation
