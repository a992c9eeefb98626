import TimedMutation.Mutation.Generate
import TimedMutation.Proofs.Automaton.Change
import TimedMutation.Proofs.Automaton.WellFormed
import TimedMutation.Proofs.Outcome

/-! What each operator finds: where a mutation is, the texts that its edit is made from, and the key
that tells it from the others at its place. -/

namespace TimedMutation

namespace Mutation

variable {c : Component} {x : Mutation}

/-- All of a mutation but its description. Discriminators start with the place of the change. -/
structure Is (x : Mutation) (operator : MutationClass) (place : ℕ) (key : String) (edit : Edit) :
    Prop where
  operator : x.operator = operator
  discriminator : x.discriminator = Text.ofNat place ++ "_" ++ key
  edit : x.edit = edit

theorem Is.self {operator : MutationClass} {place : ℕ} {key : String} {edit : Edit}
    (h : x.Is operator place key edit) : x.Is operator place key x.edit :=
  ⟨h.operator, h.discriminator, rfl⟩

inductive MovesSource (x : Mutation) (c : Component) : Prop
  | intro {e : Edge} {i : ℕ} {id : String} (edge : c.edges[i]? = some e) (free : e.locked = false)
      (known : c.hasLocation id = true) (other : id ≠ e.source)
      (is : x.Is .changeSource i id (.source i id))

inductive MovesTarget (x : Mutation) (c : Component) : Prop
  | intro {e : Edge} {i : ℕ} {id : String} (edge : c.edges[i]? = some e) (free : e.locked = false)
      (known : c.hasLocation id = true) (other : id ≠ e.target)
      (is : x.Is .changeTarget i id (.target i id))

inductive GivesAction (x : Mutation) (c : Component) (direction : Direction) : Prop
  | intro {e : Edge} {i : ℕ} {label : String} (edge : c.edges[i]? = some e)
      (free : e.locked = false) (known : label ∈ c.declarations.labels direction)
      (other : ¬ (direction = e.direction ∧ label = e.sync))
      (is : x.Is (Component.actionClass direction) i label (.action i direction label))

inductive AddsSink (x : Mutation) (c : Component) : Prop
  | intro {e : Edge} {i : ℕ} (edge : c.edges[i]? = some e) (free : e.locked = false)
      (is : x.Is .sinkLocation i c.sinkId (.sink i c.sinkId))

/-- One part of a guard has another comparison. -/
inductive SwapsComparison (x : Mutation) (c : Component) (operator : MutationClass)
    (aboutClocks : Bool) (candidates : List Comparison) : Prop
  | intro {e : Edge} {i place : ℕ} {guard : Conjunction} {part : String} {relation : Relation}
      {op : Comparison} (edge : c.edges[i]? = some e) (free : e.locked = false)
      (reads : Conjunction.ofText e.guard = .ok guard) (stands : guard.parts[place]? = some part)
      (kind : c.isClockPart part = aboutClocks) (relates : Relation.ofText part = .ok relation)
      (candidate : op ∈ candidates) (other : op ≠ relation.op)
      (is : x.Is operator i (Text.ofNat place ++ "_" ++ op.name) (.guard i
        (Conjunction.mk (guard.parts.set place (relation.withOp op).render)).render))

/-- One whole number in a guard is one greater or less. -/
inductive ShiftsConstant (x : Mutation) (c : Component) : Prop
  | intro {e : Edge} {i place : ℕ} {literal : IntegerLiteral} {step : Int} {name : String}
      (edge : c.edges[i]? = some e) (free : e.locked = false)
      (stands : (integerLiterals e.guard)[place]? = some literal)
      (shift : (step, name) ∈ Component.shifts)
      (is : x.Is .changeGuardConstant i (Text.ofNat place ++ "_" ++ name)
        (.guard i (literal.replacedBy (Text.ofInt (literal.value + step)))))

/-- One part of an invariant has its right side increased. -/
inductive LoosensBound (x : Mutation) (c : Component) : Prop
  | intro {l : Location} {i place : ℕ} {invariant : Conjunction} {part : String}
      {relation : Relation} (location : c.locations[i]? = some l)
      (ordinary : l.kind.isCompletion = false)
      (reads : Conjunction.ofText l.invariant = .ok invariant)
      (stands : invariant.parts[place]? = some part) (relates : Relation.ofText part = .ok relation)
      (is : x.Is .changeInvariant i (Text.ofNat place) (.invariant i (Conjunction.mk
        (invariant.parts.set place
          (relation.withRight (relation.right ++ " + 1")).render)).render))

/-- The update without its reset of a clock, or with one if it has none. -/
def toggledReset (u : Update) (clock : String) : Except ExprError Update :=
  match u.assignments.findIdx? fun a => a.target == clock && a.isReset with
  | some place => .ok (u.erase place)
  | none => u.assign clock "0"

inductive TogglesReset (x : Mutation) (c : Component) : Prop
  | intro {e : Edge} {i : ℕ} {u mutated : Update} {clock : String} (edge : c.edges[i]? = some e)
      (free : e.locked = false) (reads : Update.ofText e.update = .ok u)
      (known : clock ∈ c.declarations.clocks) (toggled : toggledReset u clock = .ok mutated)
      (is : x.Is .invertReset i clock (.update i mutated.render))

inductive AssignsValue (x : Mutation) (c : Component) : Prop
  | intro {e : Edge} {i : ℕ} {u mutated : Update} {l : Local} {n : Int}
      (edge : c.edges[i]? = some e) (free : e.locked = false)
      (reads : Update.ofText e.update = .ok u) (known : l ∈ c.declarations.locals)
      (value : n ∈ l.values) (other : Component.assigned? u l.name ≠ some (Text.ofInt n))
      (assigned : u.assign l.name (Text.ofInt n) = .ok mutated)
      (is : x.Is .changeVarUpdate i (l.name ++ "_" ++ Text.ofInt n) (.update i mutated.render))

/-- The mutation is one that the operator of a class can find in a component. -/
def MadeBy (x : Mutation) (c : Component) : MutationClass → Prop
  | .changeSource => x.MovesSource c
  | .changeTarget => x.MovesTarget c
  | .changeGuardOpClocks => x.SwapsComparison c .changeGuardOpClocks true Comparison.forClocks
  | .changeGuardOpLocals => x.SwapsComparison c .changeGuardOpLocals false Comparison.all
  | .changeGuardConstant => x.ShiftsConstant c
  | .invertReset => x.TogglesReset c
  | .changeInvariant => x.LoosensBound c
  | .changeActionInputs => x.GivesAction c .input
  | .changeActionOutputs => x.GivesAction c .output
  | .changeVarUpdate => x.AssignsValue c
  | .sinkLocation => x.AddsSink c

theorem MadeBy.is {m : MutationClass} (h : x.MadeBy c m) : ∃ place key, x.Is m place key x.edit := by
  cases m with
  | changeSource =>
    obtain ⟨_, _, _, _, his⟩ := h
    exact ⟨_, _, his.self⟩
  | changeTarget =>
    obtain ⟨_, _, _, _, his⟩ := h
    exact ⟨_, _, his.self⟩
  | changeGuardOpClocks | changeGuardOpLocals =>
    obtain ⟨_, _, _, _, _, _, _, _, his⟩ := h
    exact ⟨_, _, his.self⟩
  | changeGuardConstant =>
    obtain ⟨_, _, _, _, his⟩ := h
    exact ⟨_, _, his.self⟩
  | invertReset =>
    obtain ⟨_, _, _, _, _, his⟩ := h
    exact ⟨_, _, his.self⟩
  | changeInvariant =>
    obtain ⟨_, _, _, _, _, his⟩ := h
    exact ⟨_, _, his.self⟩
  | changeActionInputs | changeActionOutputs =>
    obtain ⟨_, _, _, _, his⟩ := h
    exact ⟨_, _, his.self⟩
  | changeVarUpdate =>
    obtain ⟨_, _, _, _, _, _, _, his⟩ := h
    exact ⟨_, _, his.self⟩
  | sinkLocation =>
    obtain ⟨_, _, his⟩ := h
    exact ⟨_, _, his.self⟩

end Mutation

namespace Component

variable {c : Component} {e : Edge} {i : ℕ} {x : Mutation} {found : List Mutation}

theorem mem_unlockedEdges : (e, i) ∈ c.unlockedEdges ↔ c.edges[i]? = some e ∧ e.locked = false := by
  simp [unlockedEdges, List.mk_mem_zipIdx_iff_getElem?]

theorem of_atUnlockedEdges {find : Edge → ℕ → Except MutationError (List Mutation)}
    (h : c.atUnlockedEdges find = .ok found) (hx : x ∈ found) :
    ∃ e i xs, c.edges[i]? = some e ∧ e.locked = false ∧ find e i = .ok xs ∧ x ∈ xs := by
  obtain ⟨lists, hlists, h⟩ := bind_eq_ok.mp h
  rw [← pure_eq_ok.mp h] at hx
  obtain ⟨⟨e, i⟩, hmem, xs, hfind, hxs⟩ := exists_of_mem_flatten hlists hx
  obtain ⟨he, hfree⟩ := mem_unlockedEdges.mp hmem
  exact ⟨e, i, xs, he, hfree, hfind, hxs⟩

theorem movesSource_of_mem (hx : x ∈ c.sourceChanges) : x.MovesSource c := by
  simp only [sourceChanges, ordinaryLocations, List.mem_flatMap, List.mem_map, List.mem_filter,
    Prod.exists] at hx
  obtain ⟨e, i, hmem, l, ⟨⟨hl, -⟩, hid⟩, rfl⟩ := hx
  obtain ⟨he, hfree⟩ := mem_unlockedEdges.mp hmem
  exact ⟨he, hfree, hasLocation_of_mem hl, by simpa using hid, rfl, rfl, rfl⟩

theorem movesTarget_of_mem (hx : x ∈ c.targetChanges) : x.MovesTarget c := by
  simp only [targetChanges, List.mem_flatMap, List.mem_map, List.mem_filter, Prod.exists] at hx
  obtain ⟨e, i, hmem, l, ⟨hl, hid⟩, rfl⟩ := hx
  obtain ⟨he, hfree⟩ := mem_unlockedEdges.mp hmem
  exact ⟨he, hfree, hasLocation_of_mem hl, by simpa using hid, rfl, rfl, rfl⟩

theorem givesAction_of_mem {direction : Direction} (hx : x ∈ c.actionChanges direction) :
    x.GivesAction c direction := by
  simp only [actionChanges, List.mem_flatMap, List.mem_map, List.mem_filter, Prod.exists] at hx
  obtain ⟨e, i, hmem, label, ⟨hlabel, hother⟩, rfl⟩ := hx
  obtain ⟨he, hfree⟩ := mem_unlockedEdges.mp hmem
  refine ⟨he, hfree, hlabel, ?_, rfl, rfl, rfl⟩
  rintro ⟨rfl, rfl⟩
  simp at hother

theorem addsSink_of_mem (hx : x ∈ c.sinkRedirections) : x.AddsSink c := by
  simp only [sinkRedirections, List.mem_map, Prod.exists] at hx
  obtain ⟨e, i, hmem, rfl⟩ := hx
  obtain ⟨he, hfree⟩ := mem_unlockedEdges.mp hmem
  exact ⟨he, hfree, rfl, rfl, rfl⟩

theorem swapsComparison_of_mem {operator : MutationClass} {aboutClocks : Bool}
    {candidates : List Comparison}
    (h : c.comparisonChanges operator aboutClocks candidates = .ok found) (hx : x ∈ found) :
    x.SwapsComparison c operator aboutClocks candidates := by
  obtain ⟨e, i, xs, he, hfree, hfind, hmem⟩ := of_atUnlockedEdges h hx
  obtain ⟨guard, hguard, hfind⟩ := bind_eq_ok.mp hfind
  rw [inMutation_eq_ok] at hguard
  obtain ⟨lists, hlists, hfind⟩ := bind_eq_ok.mp hfind
  rw [← pure_eq_ok.mp hfind] at hmem
  obtain ⟨⟨part, place⟩, hplace, ys, hys, hmem⟩ := exists_of_mem_flatten hlists hmem
  obtain ⟨hplace, hkind⟩ := List.mem_filter.mp hplace
  obtain ⟨relation, hrelation, hys⟩ := bind_eq_ok.mp hys
  rw [inMutation_eq_ok] at hrelation
  rw [← pure_eq_ok.mp hys] at hmem
  simp only [List.mem_map, List.mem_filter, bne_iff_ne] at hmem
  obtain ⟨op, ⟨hop, hother⟩, rfl⟩ := hmem
  exact ⟨he, hfree, hguard, List.mk_mem_zipIdx_iff_getElem?.mp hplace, by simpa using hkind,
    hrelation, hop, hother, rfl, rfl, rfl⟩

theorem shiftsConstant_of_mem (h : c.constantChanges = .ok found) (hx : x ∈ found) :
    x.ShiftsConstant c := by
  obtain ⟨e, i, xs, he, hfree, hfind, hmem⟩ := of_atUnlockedEdges h hx
  obtain ⟨lists, hlists, hfind⟩ := bind_eq_ok.mp hfind
  rw [← pure_eq_ok.mp hfind] at hmem
  obtain ⟨⟨literal, place⟩, hplace, ys, hys, hmem⟩ := exists_of_mem_flatten hlists hmem
  obtain ⟨⟨step, name⟩, hstep, hshift⟩ := exists_of_mem_mapM hys hmem
  dsimp only at hshift
  split at hshift
  · cases hshift
    exact ⟨he, hfree, List.mk_mem_zipIdx_iff_getElem?.mp hplace, hstep, rfl, rfl, rfl⟩
  · simp at hshift

theorem loosensBound_of_mem (h : c.boundChanges = .ok found) (hx : x ∈ found) :
    x.LoosensBound c := by
  obtain ⟨lists, hlists, h⟩ := bind_eq_ok.mp h
  rw [← pure_eq_ok.mp h] at hx
  obtain ⟨⟨l, i⟩, hmem, xs, hfind, hxs⟩ := exists_of_mem_flatten hlists hx
  simp only [List.mem_filter, List.mk_mem_zipIdx_iff_getElem?, Bool.not_eq_true'] at hmem
  obtain ⟨invariant, hinvariant, hfind⟩ := bind_eq_ok.mp hfind
  rw [inMutation_eq_ok] at hinvariant
  obtain ⟨⟨part, place⟩, hplace, hbound⟩ := exists_of_mem_mapM hfind hxs
  obtain ⟨relation, hrelation, hbound⟩ := bind_eq_ok.mp hbound
  rw [inMutation_eq_ok] at hrelation
  cases pure_eq_ok.mp hbound
  exact ⟨hmem.1, hmem.2, hinvariant, List.mk_mem_zipIdx_iff_getElem?.mp hplace, hrelation, rfl, rfl,
    rfl⟩

theorem of_resetChange {u : Update} {clock : String} (h : resetChange e i u clock = .ok x) :
    ∃ mutated, Mutation.toggledReset u clock = .ok mutated ∧
      x.Is .invertReset i clock (.update i mutated.render) := by
  simp only [resetChange] at h
  split at h
  · rename_i place hplace
    cases h
    exact ⟨u.erase place, by simp only [Mutation.toggledReset, hplace], rfl, rfl, rfl⟩
  · rename_i hnone
    obtain ⟨mutated, hassign, h⟩ := bind_eq_ok.mp h
    rw [inMutation_eq_ok] at hassign
    cases pure_eq_ok.mp h
    exact ⟨mutated, by simp only [Mutation.toggledReset, hnone, hassign], rfl, rfl, rfl⟩

theorem togglesReset_of_mem (h : c.resetChanges = .ok found) (hx : x ∈ found) :
    x.TogglesReset c := by
  obtain ⟨e, i, xs, he, hfree, hfind, hmem⟩ := of_atUnlockedEdges h hx
  obtain ⟨u, hu, hfind⟩ := bind_eq_ok.mp hfind
  rw [inMutation_eq_ok] at hu
  obtain ⟨clock, hclock, hreset⟩ := exists_of_mem_mapM hfind hmem
  obtain ⟨mutated, htoggled, his⟩ := of_resetChange hreset
  exact ⟨he, hfree, hu, hclock, htoggled, his⟩

theorem assignsValue_of_mem (h : c.valueChanges = .ok found) (hx : x ∈ found) :
    x.AssignsValue c := by
  obtain ⟨e, i, xs, he, hfree, hfind, hmem⟩ := of_atUnlockedEdges h hx
  obtain ⟨u, hu, hfind⟩ := bind_eq_ok.mp hfind
  rw [inMutation_eq_ok] at hu
  obtain ⟨lists, hlists, hfind⟩ := bind_eq_ok.mp hfind
  rw [← pure_eq_ok.mp hfind] at hmem
  obtain ⟨l, hl, ys, hys, hmem⟩ := exists_of_mem_flatten hlists hmem
  obtain ⟨value, hvalue, hchange⟩ := exists_of_mem_mapM hys hmem
  simp only [List.mem_filter, List.mem_map, bne_iff_ne] at hvalue
  obtain ⟨⟨n, hn, rfl⟩, hother⟩ := hvalue
  obtain ⟨mutated, hassign, hchange⟩ := bind_eq_ok.mp hchange
  rw [inMutation_eq_ok] at hassign
  cases pure_eq_ok.mp hchange
  exact ⟨he, hfree, hu, hl, hn, hother, hassign, rfl, by simp only [String.append_assoc], rfl⟩

end Component

theorem Mutation.madeBy_of_mem {c : Component} {m : MutationClass} {found : List Mutation}
    (hfound : m.mutations c = .ok found) {x : Mutation} (hx : x ∈ found) : x.MadeBy c m := by
  cases m with
  | changeSource =>
    cases hfound
    exact Component.movesSource_of_mem hx
  | changeTarget =>
    cases hfound
    exact Component.movesTarget_of_mem hx
  | changeGuardOpClocks | changeGuardOpLocals => exact Component.swapsComparison_of_mem hfound hx
  | changeGuardConstant => exact Component.shiftsConstant_of_mem hfound hx
  | invertReset => exact Component.togglesReset_of_mem hfound hx
  | changeInvariant => exact Component.loosensBound_of_mem hfound hx
  | changeActionInputs | changeActionOutputs =>
    cases hfound
    exact Component.givesAction_of_mem hx
  | changeVarUpdate => exact Component.assignsValue_of_mem hfound hx
  | sinkLocation =>
    cases hfound
    exact Component.addsSink_of_mem hx

end TimedMutation
