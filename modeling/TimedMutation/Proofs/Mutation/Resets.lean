import TimedMutation.Proofs.Mutation.Found
import TimedMutation.Proofs.Mutation.SingleEdit
import TimedMutation.Proofs.Update.RoundTrip

/-! Mutants in which an edge resets a clock or does not. The first reset of the clock is taken away, or
one is written where the update has none. -/

namespace TimedMutation

/-! ### Other assignments -/

namespace Update

/-- The targets and values of the assignments to other names. -/
def others (u : Update) (name : String) : List (String × String) :=
  (u.assignments.filter fun a => a.target != name).map fun a => (a.target, a.value)

/-- The number of resets of a name. -/
def resetCount (u : Update) (name : String) : ℕ :=
  u.assignments.countP fun a => a.target == name && a.isReset

variable {u mutated : Update} {name : String}

theorem resets_trimmed (u : Update) (name : String) :
    (Update.mk (u.assignments.map Assignment.trimmed)).resets name = u.resets name := by
  simp [resets, List.any_map, Function.comp_def, Assignment.trimmed, Assignment.isReset]

theorem others_trimmed (u : Update) (name : String) :
    (Update.mk (u.assignments.map Assignment.trimmed)).others name = u.others name := by
  simp [others, List.filter_map, Function.comp_def, Assignment.trimmed]

theorem resets_eq (u : Update) (name : String) : u.resets name = decide (0 < u.resetCount name) := by
  rw [Bool.eq_iff_iff, decide_eq_true_iff]
  simp [resets, resetCount, List.countP_pos_iff]

/-- Only identifiers are assigned to. -/
theorem Reads.target_ne (h : u.Reads) (hname : ¬ Assignment.isIdentifier name.toList = true) :
    ∀ a ∈ u.assignments, a.target ≠ name := by
  rintro a ha rfl
  exact hname (h.target ha)

theorem resets_of_forall_ne (h : ∀ a ∈ u.assignments, a.target ≠ name) : u.resets name = false := by
  simpa [resets] using fun a ha hname => absurd hname (h a ha)

theorem others_of_forall_ne (h : ∀ a ∈ u.assignments, a.target ≠ name) :
    u.others name = u.assignments.map fun a => (a.target, a.value) := by
  have hall : u.assignments.filter (fun a => a.target != name) = u.assignments := by
    rw [List.filter_eq_self]
    simpa using h
  rw [others, hall]

end Update

/-! ### The toggled update -/

namespace Mutation

open Update

variable {u mutated : Update} {clock : String}

/-- The first reset is taken away. Where there is none, the clock is given zero. -/
theorem toggledReset_cases (h : toggledReset u clock = .ok mutated) :
    (∃ before a rest, u.assignments = before ++ a :: rest ∧ a.target = clock ∧ a.isReset = true ∧
        (Update.mk before).resetCount clock = 0 ∧ mutated = ⟨before ++ rest⟩) ∨
      u.resetCount clock = 0 ∧ u.assign clock "0" = .ok mutated := by
  simp only [toggledReset] at h
  split at h
  · rename_i place hplace
    cases h
    obtain ⟨before, a, rest, hsplit, rfl, hreset, hbefore⟩ := exists_of_findIdx? hplace
    simp only [Bool.and_eq_true, beq_iff_eq] at hreset
    refine .inl ⟨before, a, rest, hsplit, hreset.1, hreset.2, ?_, ?_⟩
    · simpa [resetCount, List.countP_eq_zero] using hbefore
    · simp [erase, hsplit, List.eraseIdx_append_of_length_le]
  · rename_i hnone
    refine .inr ⟨?_, h⟩
    simpa [resetCount, List.countP_eq_zero] using List.findIdx?_eq_none_iff.mp hnone

/-- What is written for a reset is read again. -/
theorem reads_toggledReset (hu : u.Reads) (h : toggledReset u clock = .ok mutated) :
    mutated.Reads := by
  simp only [toggledReset] at h
  split at h
  · cases h
    exact hu.erase _
  · exact hu.assign h

/-- Zero is assigned to an identifier by a reset, and nothing else changes. -/
theorem assign_zero (hname : Assignment.isIdentifier clock.toList = true)
    (h : u.assign clock "0" = .ok mutated) :
    mutated.resets clock = true ∧ mutated.others clock = u.others clock := by
  have ha := Assignment.ofText_assigned hname Expr.ofText_zero
  generalize hwritten : Assignment.mk _ clock _ _ = a at ha
  have htarget : a.target = clock := by rw [← hwritten]
  have hequals : '=' ∉ clock.toList := fun hmem =>
    absurd (Assignment.isNameChar_of_isIdentifier hname hmem) (by decide)
  have hreset := Assignment.isReset_of_ofText ha hequals
  rcases assign_cases u ha with ⟨-, hassign⟩ | ⟨before, old, rest, hsplit, hold, -, hassign⟩
  · cases h.symm.trans hassign
    simp [resets, others, htarget, hreset]
  · cases h.symm.trans hassign
    simp [resets, others, hsplit, hold, htarget, hreset]

/-- The toggled update resets an identifier that the update does not reset, and does not reset one that
the update resets once. -/
theorem toggles_iff (hu : u.Reads) (h : toggledReset u clock = .ok mutated) :
    (mutated.resets clock = !u.resets clock) ↔
      Assignment.isIdentifier clock.toList = true ∧ u.resetCount clock ≤ 1 := by
  have hmutated := reads_toggledReset hu h
  rcases toggledReset_cases h with ⟨before, a, rest, hsplit, htarget, hreset, hbefore, rfl⟩ |
      ⟨hnone, hassign⟩
  · have hname : Assignment.isIdentifier clock.toList = true := by
      rw [← htarget]
      exact hu.target (by simp [hsplit])
    have hold : u.resetCount clock =
        (Update.mk before).resetCount clock + ((Update.mk rest).resetCount clock + 1) := by
      simp [resetCount, hsplit, htarget, hreset]
    have hnew : (Update.mk (before ++ rest)).resetCount clock =
        (Update.mk before).resetCount clock + (Update.mk rest).resetCount clock := by
      simp [resetCount]
    simp [resets_eq, hold, hnew, hbefore, hname]
  · have hold : u.resets clock = false := by simp [resets_eq, hnone]
    by_cases hname : Assignment.isIdentifier clock.toList = true
    · simp [hold, (assign_zero hname hassign).1, hname, hnone]
    · simp [hold, resets_of_forall_ne (hmutated.target_ne hname), hname]

/-- The assignments to other names are kept if the clock is an identifier. Otherwise there is one more,
to what is left of the clock without the white space around it. -/
theorem others_iff (hu : u.Reads) (h : toggledReset u clock = .ok mutated) :
    mutated.others clock = u.others clock ↔ Assignment.isIdentifier clock.toList = true := by
  have hmutated := reads_toggledReset hu h
  rcases toggledReset_cases h with ⟨before, a, rest, hsplit, htarget, -, -, rfl⟩ | ⟨-, hassign⟩
  · have hname : Assignment.isIdentifier clock.toList = true := by
      rw [← htarget]
      exact hu.target (by simp [hsplit])
    simp [others, hsplit, htarget, hname]
  · by_cases hname : Assignment.isIdentifier clock.toList = true
    · simp [(assign_zero hname hassign).2, hname]
    · obtain ⟨a, ha, -⟩ := bind_eq_ok.mp hassign
      have hother := hu.target_ne hname
      rcases assign_cases u ha with ⟨-, happend⟩ | ⟨before, old, rest, hsplit, hold, -, -⟩
      · cases hassign.symm.trans happend
        rw [others_of_forall_ne (hmutated.target_ne hname), others_of_forall_ne hother]
        simp [hname]
      · exact absurd hold (hother old (by simp [hsplit]))

end Mutation

/-! ### The mutants -/

variable {c : Component} {found : List Mutation} {x : Mutation}

/-- In a mutant with a reset toggled, the update of the edge is read. It resets the clock if the edge
did not and the other way round, unless the update resets the clock more than once; and it keeps the
other assignments. A clock whose name is not an identifier is neither reset nor left alone. -/
theorem reset_mutant_toggles (hfound : MutationClass.invertReset.mutations c = .ok found)
    (hx : x ∈ found) :
    ∃ i e e' u u' clock, c.edges[i]? = some e ∧ e.locked = false ∧
      Update.ofText e.update = .ok u ∧ clock ∈ c.declarations.clocks ∧
      x.discriminator = Text.ofNat i ++ "_" ++ clock ∧
      (x.testCase c).mutant.edges[i]? = some e' ∧ x.edit = .update i e'.update ∧
      Update.ofText e'.update = .ok u' ∧
      ((u'.resets clock = !u.resets clock) ↔
        Assignment.isIdentifier clock.toList = true ∧ u.resetCount clock ≤ 1) ∧
      (u'.others clock = u.others clock ↔ Assignment.isIdentifier clock.toList = true) := by
  obtain @⟨e, i, u, mutated, clock, he, hfree, hu, hclock, htoggled, his⟩ :=
    Component.togglesReset_of_mem hfound hx
  have hreads := Update.reads_of_ofText hu
  have he' := Component.getElem?_withEdge he fun e => { e with update := mutated.render }
  refine ⟨i, e, c.relock { e with update := mutated.render }, u,
    ⟨mutated.assignments.map Assignment.trimmed⟩, clock, he, hfree, hu, hclock, his.discriminator, ?_,
    his.edit, Update.ofText_render (Mutation.reads_toggledReset hreads htoggled), ?_, ?_⟩
  · rw [Mutation.testCase, his.edit]
    exact he'
  · rw [Update.resets_trimmed]
    exact Mutation.toggles_iff hreads htoggled
  · rw [Update.others_trimmed]
    exact Mutation.others_iff hreads htoggled

/-- A lamp that resets its clock twice when it is pressed. -/
def Lamp.resetting : Component :=
  { Lamp.component with
    declarations := { Lamp.component.declarations with clocks := ["t"] }
    edges := [
      { source := "Idle", target := "Lit", direction := .input, sync := "press",
        update := "t=0, t=0" }] }

theorem Lamp.ofText_twice : Update.ofText "t=0, t=0" =
    .ok ⟨[⟨"t=0", "t", "0", .number 0.0⟩, ⟨"t=0", "t", "0", .number 0.0⟩]⟩ := by
  have hreset : Assignment.ofText "t=0" = .ok ⟨"t=0", "t", "0", .number 0.0⟩ :=
    Assignment.ofText_of_cut rfl rfl (by decide) rfl rfl Expr.ofText_zero
  refine Update.ofText_of_parts rfl (by decide +kernel : _ = ["t=0", "t=0"]) ?_
  simp only [List.mapM_cons, hreset]
  rfl

/-- After the mutation the lamp still resets its clock. -/
theorem reset_mutant_of_resetting_twice :
    ∃ x, MutationClass.invertReset.mutations Lamp.resetting = .ok [x] ∧
      ∃ e' u', (x.testCase Lamp.resetting).mutant.edges[0]? = some e' ∧
        Update.ofText e'.update = .ok u' ∧ u'.resets "t" = true ∧ u'.others "t" = [] := by
  have hfound : ∃ x, MutationClass.invertReset.mutations Lamp.resetting = .ok [x] := by
    have hunlocked : Lamp.resetting.unlockedEdges = [(Lamp.resetting.edges[0], 0)] := rfl
    have hupdate : Update.ofText Lamp.resetting.edges[0].update = _ := Lamp.ofText_twice
    simp only [MutationClass.mutations, Component.resetChanges, Component.atUnlockedEdges,
      hunlocked, List.mapM_cons, List.mapM_nil, hupdate]
    exact ⟨_, rfl⟩
  obtain ⟨x, hfound⟩ := hfound
  obtain ⟨i, e, e', u, u', clock, he, -, hu, hclock, -, he', -, hu', htoggled, hothers⟩ :=
    reset_mutant_toggles hfound List.mem_cons_self
  cases List.mem_singleton.mp hclock
  have hi : i = 0 := by
    have hlt := (List.getElem?_eq_some_iff.mp he).1
    simpa [Lamp.resetting] using hlt
  subst hi
  cases he
  cases Lamp.ofText_twice.symm.trans hu
  generalize hassignments : [Assignment.mk "t=0" "t" "0" _, Assignment.mk "t=0" "t" "0" _] =
    assignments at htoggled hothers
  have hold : (Update.mk assignments).resets "t" = true := by rw [← hassignments]; decide
  have hcount : (Update.mk assignments).resetCount "t" = 2 := by rw [← hassignments]; decide
  refine ⟨x, hfound, e', u', he', hu', ?_, ?_⟩
  · simpa [hold, hcount] using htoggled
  · rw [hothers.mpr (by decide), ← hassignments]
    decide

end TimedMutation
