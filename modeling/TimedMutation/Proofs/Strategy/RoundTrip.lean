import TimedMutation.Proofs.Outcome
import TimedMutation.Proofs.Strategy.Lines
import TimedMutation.Strategy.Reader

/-! A strategy that was written block by block is read back as it was. -/

namespace TimedMutation
namespace Strategy

open StrategyLine

variable {entries : List StrategyEntry} {state : StrategyState} {rules : List StrategyRule}

/-- The entry that a block is written for. -/
def entryOf (b : WrittenBlock) : StrategyEntry := (b.state, b.rules.map WrittenRule.rule)

/-- The lines of some blocks. -/
def written (blocks : List WrittenBlock) : List String := blocks.flatMap WrittenBlock.render

theorem declare_of_not_mem (h : state ∉ entries.map (·.1)) :
    Strategy.declare ⟨entries⟩ state = ⟨entries ++ [(state, [])]⟩ := by
  have hnone : Strategy.rules? ⟨entries⟩ state = none := by
    have hfind : entries.find? (fun e => e.1 == state) = none := by
      rw [List.find?_eq_none]
      intro e he hstate
      exact h (List.mem_map.mpr ⟨e, he, by simpa using hstate⟩)
    rw [Strategy.rules?, hfind]
    rfl
  simp [declare, hnone]

theorem append_of_not_mem (h : state ∉ entries.map (·.1)) (rule : StrategyRule) :
    Strategy.append ⟨entries ++ [(state, rules)]⟩ state rule =
      ⟨entries ++ [(state, rules ++ [rule])]⟩ := by
  have happend : append.appendTo state rule (entries ++ [(state, rules)]) =
      entries ++ [(state, rules ++ [rule])] := by
    induction entries with
    | nil => simp [append.appendTo]
    | cons entry entries ih =>
      rw [List.map_cons, List.mem_cons, not_or] at h
      have hrest := ih h.2
      simp [append.appendTo, Ne.symm h.1, hrest]
  rw [append, happend]

namespace Progress

variable {number : ℕ} {line : String}

theorem readAll_cons {p q : Progress} (h : p.read number line = .ok q) (lines : List String) :
    p.readAll number (line :: lines) = q.readAll (number + 1) lines := by
  rw [readAll, h]
  rfl

theorem read_header {s : Strategy} (hs : state.Writable) :
    read ⟨s, none⟩ number state.render = .ok ⟨s.declare state, some state⟩ := by
  have hstart : startsHeader state.render = true := by
    rw [startsHeader, toList_render_state, Text.afterStart?_eq_some.mpr rfl]
    rfl
  simp [Progress.read, hstart, classify_render_state hs]

theorem read_rule {s : Strategy} {rule : WrittenRule} (h : rule.Writable) :
    read ⟨s, some state⟩ number rule.render = .ok ⟨s.append state rule.rule, some state⟩ := by
  simp [Progress.read, WrittenRule.classify_render h]

theorem read_blank {s : Strategy} : read ⟨s, some state⟩ number "" = .ok ⟨s, none⟩ := by
  simp [Progress.read, classify_blank]

/-- The rules of a block are added to its entry, in their order. -/
theorem readAll_rules (hstate : state ∉ entries.map (·.1)) {written : List WrittenRule}
    (h : ∀ rule ∈ written, rule.Writable) (number : ℕ) (lines : List String) :
    readAll ⟨⟨entries ++ [(state, rules)]⟩, some state⟩ number
        (written.map WrittenRule.render ++ lines) =
      readAll ⟨⟨entries ++ [(state, rules ++ written.map WrittenRule.rule)]⟩, some state⟩
        (number + written.length) lines := by
  induction written generalizing rules number with
  | nil => simp
  | cons rule written ih =>
    have hread : read ⟨⟨entries ++ [(state, rules)]⟩, some state⟩ number rule.render =
        .ok ⟨⟨entries ++ [(state, rules ++ [rule.rule])]⟩, some state⟩ := by
      rw [read_rule (h rule (by simp)), append_of_not_mem hstate]
    have hothers : ∀ other ∈ written, other.Writable := fun other hother => h other (by simp [hother])
    rw [List.map_cons, List.cons_append, readAll_cons hread, ih hothers]
    simp [Nat.add_assoc, Nat.add_comm 1]

theorem readAll_block {b : WrittenBlock} (hstate : b.state ∉ entries.map (·.1)) (h : b.Writable)
    (number : ℕ) (lines : List String) :
    readAll ⟨⟨entries⟩, none⟩ number (b.render ++ lines) =
      readAll ⟨⟨entries ++ [entryOf b]⟩, none⟩ (number + b.render.length) lines := by
  have hsplit : b.render ++ lines =
      b.state.render :: (b.rules.map WrittenRule.render ++ "" :: lines) := by
    simp [WrittenBlock.render]
  have hread : read ⟨⟨entries⟩, none⟩ number b.state.render =
      .ok ⟨⟨entries ++ [(b.state, [])]⟩, some b.state⟩ := by
    rw [read_header h.state, declare_of_not_mem hstate]
  have hlength : number + 1 + b.rules.length + 1 = number + b.render.length := by
    simp only [WrittenBlock.render, List.cons_append, List.length_cons, List.length_append,
      List.length_map, List.length_nil]
    omega
  rw [hsplit, readAll_cons hread, readAll_rules hstate h.rules, readAll_cons read_blank, hlength]
  rfl

/-- Block by block, every entry is added after those before it. -/
theorem readAll_written {blocks : List WrittenBlock} (h : ∀ b ∈ blocks, b.Writable)
    (hnodup : (entries.map (·.1) ++ blocks.map WrittenBlock.state).Nodup) (number : ℕ) :
    readAll ⟨⟨entries⟩, none⟩ number (written blocks) =
      .ok ⟨⟨entries ++ blocks.map entryOf⟩, none⟩ := by
  induction blocks generalizing entries number with
  | nil =>
    rw [List.map_nil, List.append_nil]
    rfl
  | cons b blocks ih =>
    have hnew : b.state ∉ entries.map (·.1) := by
      intro hold
      exact (List.nodup_append.mp hnodup).2.2 _ hold _ (by simp) rfl
    have hrest : ((entries ++ [entryOf b]).map (·.1) ++ blocks.map WrittenBlock.state).Nodup := by
      simpa [entryOf] using hnodup
    have hlines : written (b :: blocks) = b.render ++ written blocks := rfl
    have hothers : ∀ other ∈ blocks, other.Writable := fun other hother => h other (by simp [hother])
    rw [hlines, readAll_block hnew (h b (by simp)), ih hothers hrest]
    simp

end Progress

theorem ofLines_written_entries {blocks : List WrittenBlock} (h : ∀ b ∈ blocks, b.Writable)
    (hnodup : (blocks.map WrittenBlock.state).Nodup) :
    ofLines (written blocks) = .ok ⟨blocks.map entryOf⟩ := by
  have hread : Progress.readAll ⟨⟨[]⟩, none⟩ 1 (written blocks) =
      .ok ⟨⟨[] ++ blocks.map entryOf⟩, none⟩ :=
    Progress.readAll_written h (by simpa using hnodup) 1
  rw [ofLines, empty, hread]
  rfl

theorem lines_textOf {lines : List String} (hline : ∀ line ∈ lines, IsLine line)
    (hend : ∀ line ∈ lines, Text.trimEnd line.toList = line.toList) :
    (Text.lines (textOf lines).toList).map String.ofList = lines := by
  have htext : (textOf lines).toList = (lines.map String.toList).flatMap (· ++ ['\n']) := by
    have hfeed : "\n".toList = ['\n'] := rfl
    rw [textOf, String.toList_join, List.flatMap_map, List.flatMap_map]
    simp only [String.toList_append, hfeed]
  have hlines : Text.lines ((lines.map String.toList).flatMap (· ++ ['\n'])) =
      lines.map String.toList := by
    refine Text.lines_ended ?_ ?_
    · simpa [IsLine] using hline
    · simpa using hend
  rw [htext, hlines]
  simp [Function.comp_def]

theorem isLine_of_mem_written {blocks : List WrittenBlock} (h : ∀ b ∈ blocks, b.Writable)
    {line : String} (hline : line ∈ written blocks) :
    IsLine line ∧ Text.trimEnd line.toList = line.toList := by
  obtain ⟨b, hb, hline⟩ := List.mem_flatMap.mp hline
  simp only [WrittenBlock.render, List.cons_append, List.mem_cons, List.mem_append, List.mem_map,
    List.not_mem_nil, or_false] at hline
  rcases hline with rfl | ⟨rule, hrule, rfl⟩ | rfl
  · exact ⟨isLine_render_state (h b hb).state, trimEnd_render_state b.state⟩
  · exact ⟨WrittenRule.isLine_render ((h b hb).rules rule hrule), rule.trimEnd_render⟩
  · exact ⟨by decide, by decide⟩

/-- Blocks of different states are read back as they were written: these states in this order, each
with its rules in their order, whether the lines are given one by one or as a text. -/
theorem ofLines_written {blocks : List WrittenBlock} (h : ∀ b ∈ blocks, b.Writable)
    (hnodup : (blocks.map WrittenBlock.state).Nodup) :
    ofLines (written blocks) =
        .ok ⟨blocks.map fun b => (b.state, b.rules.map WrittenRule.rule)⟩ ∧
      ofText (textOf (written blocks)) =
        .ok ⟨blocks.map fun b => (b.state, b.rules.map WrittenRule.rule)⟩ := by
  have hentries := ofLines_written_entries h hnodup
  refine ⟨hentries, ?_⟩
  rw [ofText, lines_textOf (fun line hline => (isLine_of_mem_written h hline).1)
    fun line hline => (isLine_of_mem_written h hline).2]
  exact hentries

/-- A condition and a value may look like other marks. -/
theorem ofLines_written_lamp :
    let press : ActionRule := ⟨"a, wait.", "S", "Lit", some ("press", .input), ""⟩
    let blocks : List WrittenBlock := [
      ⟨⟨"S.Idle", "M.Idle", ["v=[spoiler]"]⟩, [.delay "S.x<2, wait.", .action press "Idle" "\x7d"]⟩,
      ⟨⟨"S.Lit", "M.Lit", []⟩, []⟩]
    (∀ b ∈ blocks, b.Writable) ∧ (blocks.map WrittenBlock.state).Nodup ∧
      ofLines (written blocks) = .ok ⟨[
        (⟨"S.Idle", "M.Idle", ["v=[spoiler]"]⟩, [.delay "S.x<2, wait.", .action press]),
        (⟨"S.Lit", "M.Lit", []⟩, [])]⟩ := by
  intro press blocks
  have hwritable : ∀ b ∈ blocks, b.Writable := by decide +kernel
  have hnodup : (blocks.map WrittenBlock.state).Nodup := by decide
  exact ⟨hwritable, hnodup, (ofLines_written hwritable hnodup).1⟩

end Strategy
end TimedMutation
