import TimedMutation.Mutation.Basic
import TimedMutation.Proofs.Automaton.Change
import TimedMutation.Proofs.Outcome

/-! What it means that a mutant differs from a component in one edit of a class. -/

namespace TimedMutation

/-- Two edges differ in what a class changes and agree in everything else, locks aside. -/
def MutationClass.Alters : MutationClass → Edge → Edge → Prop
  | changeSource, e, e' =>
    e'.source ≠ e.source ∧ e' = { e with source := e'.source, locked := e'.locked }
  | changeTarget, e, e' =>
    e'.target ≠ e.target ∧ e' = { e with target := e'.target, locked := e'.locked }
  | changeGuardOpClocks, e, e' | changeGuardOpLocals, e, e' | changeGuardConstant, e, e' =>
    e'.guard ≠ e.guard ∧ e' = { e with guard := e'.guard, locked := e'.locked }
  | invertReset, e, e' | changeVarUpdate, e, e' =>
    e'.update ≠ e.update ∧ e' = { e with update := e'.update, locked := e'.locked }
  | changeActionInputs, e, e' | changeActionOutputs, e, e' =>
    ¬ (e'.direction = e.direction ∧ e'.sync = e.sync) ∧
      e' = { e with direction := e'.direction, sync := e'.sync, locked := e'.locked }
  | changeInvariant, _, _ | sinkLocation, _, _ => False

/-- The mutant is the component with one edit of a class: one unlocked edge altered, the invariant of
one location that completion did not add, or one unlocked edge led to a new location that stays where
it is at every input. -/
inductive EditsOnce (c : Component) : MutationClass → Component → Prop
  | edge {m : MutationClass} {i : ℕ} {e e' : Edge} :
      c.edges[i]? = some e → e.locked = false → m.Alters e e' →
      EditsOnce c m { c with edges := c.edges.set i e' }
  | invariant {i : ℕ} {l : Location} {text : String} :
      c.locations[i]? = some l → l.kind.isCompletion = false → text ≠ l.invariant →
      EditsOnce c .changeInvariant
        { c with locations := c.locations.set i { l with invariant := text } }
  | sink {i : ℕ} {e : Edge} {id : String} :
      c.edges[i]? = some e → e.locked = false → (∀ l ∈ c.locations, l.id ≠ id) →
      EditsOnce c .sinkLocation { c with
        locations := c.locations ++ [{ id, invariant := "", kind := .normal }]
        edges := c.edges.set i { e with target := id } ++
          c.declarations.inputs.map (Edge.ignoring id) }

theorem MutationClass.Alters.ne {m : MutationClass} {e e' : Edge} (h : m.Alters e e') : e' ≠ e := by
  rintro rfl
  cases m <;> simp [Alters] at h

namespace EditsOnce

variable {c mutant : Component} {m : MutationClass}

theorem name_eq (h : EditsOnce c m mutant) : mutant.name = c.name := by
  cases h <;> rfl

theorem declarations_eq (h : EditsOnce c m mutant) : mutant.declarations = c.declarations := by
  cases h <;> rfl

theorem ne (h : EditsOnce c m mutant) : mutant ≠ c := by
  cases h with
  | @edge _ i e e' he _ halters =>
    intro hsame
    have hedges : c.edges.set i e' = c.edges := congrArg Component.edges hsame
    obtain ⟨hlt, -⟩ := List.getElem?_eq_some_iff.mp he
    have hi : (c.edges.set i e')[i]? = some e' := List.getElem?_set_self hlt
    rw [hedges, he] at hi
    exact halters.ne (Option.some.inj hi).symm
  | @invariant i l text hl _ htext =>
    intro hsame
    have hlocations : c.locations.set i { l with invariant := text } = c.locations :=
      congrArg Component.locations hsame
    obtain ⟨hlt, -⟩ := List.getElem?_eq_some_iff.mp hl
    have hi : (c.locations.set i { l with invariant := text })[i]? =
        some { l with invariant := text } := List.getElem?_set_self hlt
    rw [hlocations, hl] at hi
    exact htext (congrArg Location.invariant (Option.some.inj hi)).symm
  | sink =>
    intro hsame
    have hlength := congrArg (fun c => c.locations.length) hsame
    simp at hlength

/-- No edit changes an edge that is locked. -/
theorem locked_kept (h : EditsOnce c m mutant) {j : ℕ} {e : Edge} (he : c.edges[j]? = some e)
    (hlocked : e.locked = true) : mutant.edges[j]? = some e := by
  -- An edge in the place of the edit would be the unlocked one.
  have hne : ∀ {i : ℕ} {e₁ : Edge}, c.edges[i]? = some e₁ → e₁.locked = false → i ≠ j := by
    rintro i e₁ hi hfree rfl
    rw [he] at hi
    cases hi
    simp [hlocked] at hfree
  cases h with
  | edge hi hfree _ => exact (List.getElem?_set_ne (hne hi hfree)).trans he
  | invariant => exact he
  | sink hi hfree _ =>
    obtain ⟨hlt, -⟩ := List.getElem?_eq_some_iff.mp he
    refine (List.getElem?_append_left (by simpa using hlt)).trans ?_
    exact (List.getElem?_set_ne (hne hi hfree)).trans he

end EditsOnce

/-! ### The edits -/

/-- Changing an edge changes this edge and its lock. -/
theorem Component.getElem?_withEdge {c : Component} {i : ℕ} {e : Edge} (he : c.edges[i]? = some e)
    (change : Edge → Edge) : (c.withEdge i change).edges[i]? = some (c.relock (change e)) := by
  change ((c.edges.modify i change).map c.relock)[i]? = _
  rw [List.getElem?_map, List.getElem?_modify_eq, he]
  rfl

namespace Edit

variable {c : Component} {m : MutationClass} {i : ℕ} {e : Edge}

theorem editsOnce_withEdge (hlocks : c.refreshLocks = c) (he : c.edges[i]? = some e)
    (hfree : e.locked = false) {change : Edge → Edge} (h : m.Alters e (c.relock (change e))) :
    EditsOnce c m (c.withEdge i change) := by
  rw [Component.withEdge, Component.refreshLocks_modify hlocks he]
  exact .edge he hfree h

theorem editsOnce_invariant {l : Location} {text : String} (hl : c.locations[i]? = some l)
    (hkind : l.kind.isCompletion = false) (htext : text ≠ l.invariant) :
    EditsOnce c .changeInvariant ((Edit.invariant i text).apply c) := by
  have hset : c.locations.modify i (fun l => { l with invariant := text }) =
      c.locations.set i { l with invariant := text } := by
    rw [List.modify_eq_set_getElem?, hl]
    rfl
  rw [apply, hset]
  exact .invariant hl hkind htext

/-- The sink locks nothing, and the edge that is led to it stays unlocked. -/
theorem apply_sink (hlocks : c.refreshLocks = c) (he : c.edges[i]? = some e)
    (hfree : e.locked = false) {id : String} (hid : ∀ l ∈ c.locations, l.id ≠ id) :
    (Edit.sink i id).apply c = { c with
      locations := c.locations ++ [{ id, invariant := "", kind := .normal }]
      edges := c.edges.set i { e with target := id } ++
        c.declarations.inputs.map (Edge.ignoring id) } := by
  let grown := { c with locations := c.locations ++ [({ id } : Location)] }
  have hcompletion : ∀ name, grown.isCompletionId name = c.isCompletionId name := by
    intro name
    simp [Component.isCompletionId, grown, LocationKind.isCompletion]
  have hrelock : ∀ e : Edge, grown.relock e = c.relock e := by
    intro e
    simp [Component.relock, hcompletion]
  have hgrown : grown.refreshLocks = grown := by
    rw [Component.refreshLocks_eq_iff] at hlocks ⊢
    exact fun e he => (hrelock e).trans (hlocks e he)
  have hredirected : grown.relock { e with target := id } = { e with target := id } := by
    have hlock := congrArg Edge.locked
      (Component.refreshLocks_eq_iff.mp hlocks e (List.mem_of_getElem? he))
    simp only [Component.relock, hfree, Bool.or_eq_false_iff] at hlock
    simp [Component.relock, hcompletion, hlock.1, Component.isCompletionId_fresh hid, hfree]
  have hignoring : (c.declarations.inputs.map (Edge.ignoring id)).map grown.relock =
      c.declarations.inputs.map (Edge.ignoring id) := by
    simp [Component.relock, Edge.ignoring, hcompletion, Component.isCompletionId_fresh hid]
  have hedges : (c.edges.modify i fun e => { e with target := id }).map grown.relock =
      c.edges.set i { e with target := id } := by
    have hmodify := congrArg Component.edges
      (Component.refreshLocks_modify hgrown he fun e => { e with target := id })
    rw [hredirected] at hmodify
    exact hmodify
  have happly : (Edit.sink i id).apply c =
      { grown with edges := ((c.edges.modify i fun e => { e with target := id }) ++
        c.declarations.inputs.map (Edge.ignoring id)).map grown.relock } := rfl
  rw [happly, List.map_append, hedges, hignoring]

theorem editsOnce_sink (hlocks : c.refreshLocks = c) (he : c.edges[i]? = some e)
    (hfree : e.locked = false) {id : String} (hid : ∀ l ∈ c.locations, l.id ≠ id) :
    EditsOnce c .sinkLocation ((Edit.sink i id).apply c) := by
  rw [apply_sink hlocks he hfree hid]
  exact .sink he hfree hid

/-- The locks of a mutant are up to date: an edit of an edge or of the locations computes them again,
and no lock depends on an invariant. -/
theorem refreshLocks_apply (edit : Edit) (hlocks : c.refreshLocks = c) :
    (edit.apply c).refreshLocks = edit.apply c := by
  cases edit with
  | invariant i text =>
    rw [Component.refreshLocks_eq_iff] at hlocks ⊢
    intro e he
    have hrelock : ((Edit.invariant i text).apply c).relock e = c.relock e := by
      simp only [Component.relock, Component.isCompletionId, apply,
        Component.isCompletionId_invariant]
    exact hrelock.trans (hlocks e he)
  | source | target | guard | update | action | sink => exact Component.refreshLocks_refreshLocks _

end Edit

end TimedMutation
