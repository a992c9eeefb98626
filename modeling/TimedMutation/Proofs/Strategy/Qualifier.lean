import TimedMutation.Expr.Token
import TimedMutation.Proofs.Text.Replace
import TimedMutation.Strategy.Basic

/-! The update of a rule without the qualifier of the process that acts. The qualifier is taken out
wherever it stands, at the start of a name or within one. -/

namespace TimedMutation

/-- Whether a character stands in names, which dots may join. -/
def isPathChar (c : Char) : Bool := isNameChar c || c == '.'

namespace ActionRule

/-- What stands before the names of the process that acts. -/
def qualifier (rule : ActionRule) : List Char := rule.process.toList ++ ['.']

/-- The parts of the update that are names or numbers, and what is between them. -/
def stretches (rule : ActionRule) : List (List Char) := Text.stretches isPathChar rule.update.toList

/-- A stretch without the qualifier at its start, if there is one. -/
def dropQualifier (rule : ActionRule) (w : List Char) : List Char :=
  (Text.afterStart? rule.qualifier w).getD w

/-- The update in which the names of the acting process have lost their qualifier and everything else is
as it was. -/
def strippedUpdate (rule : ActionRule) : String :=
  String.ofList (rule.stretches.flatMap rule.dropQualifier)

variable (rule : ActionRule) {w : List Char}

theorem qualifier_ne_nil : rule.qualifier ≠ [] := by simp [qualifier]

theorem dropQualifier_cases (w : List Char) :
    (∃ rest, w = rule.qualifier ++ rest ∧ rule.dropQualifier w = rest) ∨
      ¬ rule.qualifier <+: w ∧ rule.dropQualifier w = w := by
  cases hstart : Text.afterStart? rule.qualifier w with
  | some rest =>
    exact .inl ⟨rest, Text.afterStart?_eq_some.mp hstart, by simp [dropQualifier, hstart]⟩
  | none => exact .inr ⟨Text.afterStart?_eq_none.mp hstart, by simp [dropQualifier, hstart]⟩

/-- The qualifier at the start of a stretch goes in any case. -/
theorem replaceAll_dropQualifier (w : List Char) :
    Text.replaceAll rule.qualifier [] (rule.dropQualifier w) =
      Text.replaceAll rule.qualifier [] w := by
  rcases rule.dropQualifier_cases w with ⟨rest, rfl, hdrop⟩ | ⟨-, hdrop⟩
  · rw [hdrop, Text.replaceAll_mark rule.qualifier_ne_nil, List.nil_append]
  · rw [hdrop]

/-- A process that is not named by a name has no qualifier within a stretch. -/
theorem not_infix_of_mem_stretches (hprocess : ¬ ∀ c ∈ rule.process.toList, isPathChar c = true)
    (hw : w ∈ rule.stretches) : ¬ rule.qualifier <:+: w := by
  intro hin
  refine hprocess fun c hc => ?_
  have hc' : c ∈ w := hin.subset (List.mem_append_left _ hc)
  have hdot : '.' ∈ w := hin.subset (by simp [qualifier])
  rw [Text.kind_of_mem_stretches hw hc' hdot]
  rfl

/-- Taking the qualifier out of the update takes it off the names of the process and does nothing else
exactly if it stands nowhere else: neither across what is between names, nor within a name, or once
more after it was taken off. -/
theorem unqualifiedUpdate_eq_stripped_iff :
    rule.unqualifiedUpdate = rule.strippedUpdate ↔
      (rule.qualifier <:+: rule.update.toList → ∀ c ∈ rule.process.toList, isPathChar c = true) ∧
      ∀ w ∈ rule.stretches, ¬ rule.qualifier <:+: rule.dropQualifier w := by
  have hne := rule.qualifier_ne_nil
  have htext : rule.unqualifiedUpdate = rule.strippedUpdate ↔
      Text.replaceAll rule.qualifier [] rule.update.toList =
        rule.stretches.flatMap rule.dropQualifier :=
    String.ofList_inj
  rw [htext]
  by_cases hprocess : ∀ c ∈ rule.process.toList, isPathChar c = true
  · have hmark : ∀ m ∈ rule.qualifier, isPathChar m = true := by
      intro m hm
      rcases List.mem_append.mp hm with hm | hm
      · exact hprocess m hm
      · cases List.mem_singleton.mp hm
        rfl
    rw [Text.replaceAll_stretches hne hmark, ← stretches, Text.flatMap_eq_iff fun w _ => ?_]
    · refine ⟨fun h => ⟨fun _ => hprocess, fun w hw => ?_⟩, fun h w hw => ?_⟩
      · rw [← Text.replaceAll_eq_self hne, rule.replaceAll_dropQualifier, h w hw]
      · rw [← rule.replaceAll_dropQualifier, Text.replaceAll_eq_self hne]
        exact h.2 w hw
    · rw [← rule.replaceAll_dropQualifier]
      exact Text.length_replaceAll_le hne _
  · have hnone : ∀ w ∈ rule.stretches, ¬ rule.qualifier <:+: w :=
      fun w hw => rule.not_infix_of_mem_stretches hprocess hw
    have hsame : ∀ w ∈ rule.stretches, rule.dropQualifier w = w := by
      intro w hw
      rcases rule.dropQualifier_cases w with ⟨rest, rfl, -⟩ | ⟨-, hdrop⟩
      · exact absurd (List.prefix_append _ rest).isInfix (hnone _ hw)
      · exact hdrop
    have hwhole : rule.stretches.flatMap rule.dropQualifier = rule.update.toList := by
      rw [List.flatMap_congr hsame, List.flatMap_id']
      exact Text.flatten_stretches _ _
    rw [hwhole, Text.replaceAll_eq_self hne]
    refine ⟨fun h => ⟨fun hin => absurd hin h, fun w hw => ?_⟩, fun h hin => hprocess (h.1 hin)⟩
    rw [hsame w hw]
    exact hnone w hw

/-- The name of a process that ends with the name of the acting one is cut short. -/
theorem unqualifiedUpdate_cuts_name :
    let rule : ActionRule := ⟨"true", "S", "Lit", some ("press", .input), "n = VS.k"⟩
    rule.unqualifiedUpdate = "n = Vk" ∧ rule.strippedUpdate = "n = VS.k" ∧
      rule.unqualifiedUpdate ≠ rule.strippedUpdate := by
  intro rule
  have hstretch : ['V', 'S', '.', 'k'] ∈ rule.stretches := by decide +kernel
  have hwithin : rule.qualifier <:+: rule.dropQualifier ['V', 'S', '.', 'k'] := by decide +kernel
  refine ⟨by decide +kernel, by decide +kernel, fun hsame => ?_⟩
  exact (rule.unqualifiedUpdate_eq_stripped_iff.mp hsame).2 _ hstretch hwithin

end ActionRule

end TimedMutation
