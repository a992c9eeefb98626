import TimedMutation.Proofs.Automaton.FreshId

/-! Components whose locks are as they should be: what is left of the others when one edge changes
or a location with a new id comes. -/

namespace TimedMutation
namespace Component

variable {c : Component}

/-- The edge with the lock that the component gives it. -/
def relock (c : Component) (e : Edge) : Edge :=
  { e with locked := c.isCompletionId e.source || c.isCompletionId e.target }

theorem refreshLocks_eq_iff :
    c.refreshLocks = c ↔ ∀ e ∈ c.edges, c.relock e = e := by
  have hedges : c.refreshLocks = c ↔ c.edges.map c.relock = c.edges := by
    constructor
    · exact congrArg Component.edges
    · intro h
      change { c with edges := c.edges.map c.relock } = c
      rw [h]
  rw [hedges]
  conv_lhs => rhs; rw [← List.map_id c.edges]
  exact List.map_inj_left

/-- A component in which one edge has changed keeps every other edge and its lock. -/
theorem refreshLocks_modify (h : c.refreshLocks = c) {i : ℕ} {e : Edge} (he : c.edges[i]? = some e)
    (change : Edge → Edge) :
    Component.refreshLocks { c with edges := c.edges.modify i change } =
      { c with edges := c.edges.set i (c.relock (change e)) } := by
  have hlocks : c.edges.map c.relock = c.edges := congrArg Component.edges h
  obtain ⟨hlt, hget⟩ := List.getElem?_eq_some_iff.mp he
  have hset : c.edges.modify i change = c.edges.set i (change e) := by
    rw [List.modify_eq_set_getElem?, he]
    rfl
  have hmap : (c.edges.set i (change e)).map c.relock = c.edges.set i (c.relock (change e)) := by
    rw [List.map_set, hlocks]
  change { c with edges := (c.edges.modify i change).map c.relock } = _
  rw [hset, hmap]

/-- Which ids lock an edge does not depend on an invariant. -/
theorem isCompletionId_invariant (ls : List Location) (i : ℕ) (text id : String) :
    ((ls.modify i fun l => { l with invariant := text }).any fun l =>
        l.kind.isCompletion && l.id == id) =
      ls.any fun l => l.kind.isCompletion && l.id == id := by
  induction ls generalizing i with
  | nil => simp
  | cons l ls ih =>
    cases i with
    | zero => simp
    | succ i => simp [ih i]

/-- An ordinary location with a fresh id locks nothing. -/
theorem isCompletionId_fresh {id : String} (h : ∀ l ∈ c.locations, l.id ≠ id) :
    c.isCompletionId id = false := by
  simp only [isCompletionId, List.any_eq_false, Bool.and_eq_true, beq_iff_eq, not_and]
  exact fun l hl _ => h l hl

end Component
end TimedMutation
