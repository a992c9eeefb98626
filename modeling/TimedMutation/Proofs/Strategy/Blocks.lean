import Mathlib.Data.List.Induction
import TimedMutation.Proofs.Outcome
import TimedMutation.Proofs.Text.Blank
import TimedMutation.Strategy.Reader

/-! The blocks of a strategy text. A text that is read has each rule under the header of the block
that its line lies in, and one that is not read is refused for the first faulty line that counts. -/

namespace TimedMutation
namespace Strategy

/-- What a line does to blocks: a blank line ends the one around it and a header starts another. -/
def boundary? (line : String) : Option (Option StrategyState) :=
  match StrategyLine.classify line with
  | .ok .blank => some none
  | .ok (.header state) => some (some state)
  | _ => none

def ruleOn? (line : String) : Option StrategyRule :=
  match StrategyLine.classify line with
  | .ok (.rule rule) => some rule
  | _ => none

/-- The state of the block that the line with an index lies in: that of the last header before it,
unless a blank line came since. -/
def blockAt (lines : List String) (i : ℕ) : Option StrategyState :=
  ((lines.take i).reverse.findSome? boundary?).join

/-- The states of the headers, in their order. -/
def headers (lines : List String) : List StrategyState :=
  lines.filterMap fun line => (boundary? line).join

/-- The rules on the lines of all blocks of a state, in their order. -/
def filed (lines : List String) (state : StrategyState) : List StrategyRule :=
  lines.zipIdx.filterMap fun (line, i) =>
    if blockAt lines i = some state then ruleOn? line else none

/-- The line with an index counts, since it starts like a header or lies in a block, but it cannot be
understood, which the error says. -/
def Faulty (lines : List String) (i : ℕ) (e : StrategyError) : Prop :=
  ∃ line, lines[i]? = some line ∧ (startsHeader line = true ∨ (blockAt lines i).isSome = true) ∧
    (StrategyLine.classify line = .error e ∨
      ∃ why, StrategyLine.classify line = .ok (.malformed why) ∧ e = .line (i + 1) line)

variable {lines : List String} {line : String} {state : StrategyState} {i : ℕ} {e : StrategyError}

/-! ### More lines -/

theorem blockAt_append (h : i ≤ lines.length) (rest : List String) :
    blockAt (lines ++ rest) i = blockAt lines i := by
  rw [blockAt, blockAt, List.take_append_of_le_length h]

theorem blockAt_concat : blockAt (lines ++ [line]) (lines.length + 1) =
    (boundary? line).getD (blockAt lines lines.length) := by
  have htake : (lines ++ [line]).take (lines.length + 1) = lines ++ [line] :=
    List.take_of_length_le (by simp)
  rw [blockAt, blockAt, htake, List.take_length, List.reverse_concat, List.findSome?_cons]
  cases boundary? line <;> rfl

theorem headers_concat : headers (lines ++ [line]) = headers lines ++ (boundary? line).join.toList := by
  rw [headers, headers, List.filterMap_append]
  cases h : (boundary? line).join <;> simp [h]

theorem filed_concat : filed (lines ++ [line]) state = filed lines state ++
    if blockAt lines lines.length = some state then (ruleOn? line).toList else [] := by
  have hlast : blockAt (lines ++ [line]) lines.length = blockAt lines lines.length :=
    blockAt_append (le_refl _) _
  have hbefore : lines.zipIdx.filterMap (fun (line', i) =>
      if blockAt (lines ++ [line]) i = some state then ruleOn? line' else none) =
      filed lines state := by
    refine List.filterMap_congr fun x hx => ?_
    have hlt : x.2 < lines.length := by simpa using List.snd_lt_of_mem_zipIdx hx
    simp only [blockAt_append hlt.le]
  rw [filed, List.zipIdx_append, List.filterMap_append, hbefore]
  congr 1
  simp only [List.zipIdx_singleton, Nat.zero_add, List.filterMap_cons, List.filterMap_nil, hlast]
  split <;> split <;> simp_all

theorem mem_headers_of_blockAt (h : blockAt lines i = some state) : state ∈ headers lines := by
  obtain ⟨line, hline, hboundary⟩ := List.exists_of_findSome?_eq_some (Option.join_eq_some_iff.mp h)
  have hmem : line ∈ lines := List.mem_of_mem_take (List.mem_reverse.mp hline)
  exact List.mem_filterMap.mpr ⟨line, hmem, by rw [hboundary, Option.join_some]⟩

theorem filed_eq_nil (h : state ∉ headers lines) : filed lines state = [] := by
  rw [filed, List.filterMap_eq_nil_iff]
  rintro ⟨line, i⟩ _
  exact if_neg fun hblock => h (mem_headers_of_blockAt hblock)

theorem faulty_append (h : i < lines.length) (rest : List String) :
    Faulty (lines ++ rest) i e ↔ Faulty lines i e := by
  simp only [Faulty, List.getElem?_append_left h, blockAt_append h.le]

theorem Faulty.lt (h : Faulty lines i e) : i < lines.length := by
  obtain ⟨line, hline, -⟩ := h
  exact (List.getElem?_eq_some_iff.mp hline).1

theorem Faulty.unique {e' : StrategyError} (h : Faulty lines i e) (h' : Faulty lines i e') :
    e = e' := by
  obtain ⟨line, hline, -, hwhy⟩ := h
  obtain ⟨line', hline', -, hwhy'⟩ := h'
  rw [hline] at hline'
  cases hline'
  rcases hwhy with hwhy | ⟨why, hwhy, rfl⟩ <;> rcases hwhy' with hwhy' | ⟨why', hwhy', rfl⟩
  · exact Except.error.inj (hwhy.symm.trans hwhy')
  · cases hwhy.symm.trans hwhy'
  · cases hwhy.symm.trans hwhy'
  · rfl

theorem classify_eq_header (h : StrategyLine.classify line = .ok (.header state)) :
    ∃ rest, Text.trimEnd line.toList = StrategyLine.headerMark ++ rest := by
  cases hmark : Text.afterStart? StrategyLine.headerMark (Text.trimEnd line.toList) with
  | some rest => exact ⟨rest, Text.afterStart?_eq_some.mp hmark⟩
  | none =>
    -- Without the mark the line is blank, a rule, malformed or an error.
    simp only [StrategyLine.classify, hmark] at h
    repeat' split at h
    all_goals simp at h

/-- A line that is a header starts like one, whatever white space ends it. -/
theorem startsHeader_of_boundary? (h : boundary? line = some (some state)) :
    startsHeader line = true := by
  have hheader : StrategyLine.classify line = .ok (.header state) := by
    unfold boundary? at h
    split at h <;> simp_all
  obtain ⟨rest, hrest⟩ := classify_eq_header hheader
  obtain ⟨after, -, hline⟩ := Text.exists_trimEnd line.toList
  have hstart : line.toList = StrategyLine.headerMark ++ (rest ++ after) := by
    rw [hline, hrest, List.append_assoc]
  rw [startsHeader, Text.afterStart?_eq_some.mpr hstart]
  rfl

/-! ### Entries -/

theorem nodup_eraseDups {α : Type} [BEq α] [LawfulBEq α] (as : List α) : as.eraseDups.Nodup := by
  induction as using List.reverseRecOn with
  | nil => simp
  | append_singleton as a ih =>
    rw [List.eraseDups_append]
    by_cases ha : a ∈ as
    · have hnone : [a].removeAll as = [] := by simp [List.removeAll, ha]
      simpa [hnone] using ih
    · have hone : [a].removeAll as = [a] := by simp [List.removeAll, ha]
      rw [hone, List.eraseDups_cons, List.filter_nil, List.eraseDups_nil, List.nodup_append]
      refine ⟨ih, by simp, ?_⟩
      rintro b hb a' ha' rfl
      cases List.mem_singleton.mp ha'
      exact ha (List.mem_eraseDups.mp hb)

/-- The entries for some states with the rules that are given for each. -/
def entriesFor (states : List StrategyState) (rules : StrategyState → List StrategyRule) :
    List StrategyEntry :=
  states.map fun state => (state, rules state)

theorem declare_entries {s : Strategy} {states : List StrategyState}
    {rules : StrategyState → List StrategyRule} (hs : s.entries = entriesFor states.eraseDups rules)
    (hnew : state ∉ states → rules state = []) :
    (s.declare state).entries = entriesFor (states ++ [state]).eraseDups rules := by
  have hfound : (s.rules? state).isSome = true ↔ state ∈ states := by
    simp [rules?, hs, entriesFor, List.find?_isSome]
  rw [List.eraseDups_append]
  unfold declare
  by_cases hmem : state ∈ states
  · have hnone : [state].removeAll states = [] := by simp [List.removeAll, hmem]
    rw [if_pos (hfound.mpr hmem), hs, hnone, List.eraseDups_nil, List.append_nil]
  · have hone : [state].removeAll states = [state] := by simp [List.removeAll, hmem]
    rw [if_neg fun h => hmem (hfound.mp h), hone]
    simp [hs, entriesFor, hnew hmem, List.eraseDups_cons]

theorem append_entries {s : Strategy} {states : List StrategyState} (hnodup : states.Nodup)
    {rules : StrategyState → List StrategyRule} (hs : s.entries = entriesFor states rules)
    (state : StrategyState) (rule : StrategyRule) :
    (s.append state rule).entries =
      entriesFor states fun other => rules other ++ if state = other then [rule] else [] := by
  have happend : ∀ states : List StrategyState, states.Nodup →
      append.appendTo state rule (entriesFor states rules) =
        entriesFor states fun other => rules other ++ if state = other then [rule] else [] := by
    intro states hnodup
    induction states with
    | nil => rfl
    | cons first states ih =>
      obtain ⟨hfirst, hrest⟩ := List.nodup_cons.mp hnodup
      simp only [entriesFor, List.map_cons, append.appendTo]
      by_cases h : first = state
      · subst h
        have hothers : states.map (fun other => (other, rules other)) =
            states.map fun other => (other, rules other ++ if first = other then [rule] else []) := by
          refine List.map_congr_left fun other hother => ?_
          have hne : first ≠ other := fun heq => hfirst (heq ▸ hother)
          simp [hne]
        simp [hothers]
      · simp only [if_neg h, if_neg (Ne.symm h), List.append_nil]
        exact congrArg _ (ih hrest)
  rw [append, hs]
  exact happend states hnodup

/-! ### Reading -/

/-- What has been read after some lines: the block that the next line lies in, and for each state of
a header the rules that are filed under it. -/
structure Progress.After (p : Progress) (seen : List String) : Prop where
  block : p.block = blockAt seen seen.length
  entries : p.strategy.entries = entriesFor (headers seen).eraseDups (filed seen)

variable {p q : Progress} {seen : List String}

theorem faulty_last : Faulty (seen ++ [line]) seen.length e ↔
    (startsHeader line = true ∨ (blockAt seen seen.length).isSome = true) ∧
      (StrategyLine.classify line = .error e ∨
        ∃ why, StrategyLine.classify line = .ok (.malformed why) ∧
          e = .line (seen.length + 1) line) := by
  simp [Faulty, blockAt_append (le_refl seen.length)]

namespace Progress

theorem After.concat
    (hblock : q.block = (boundary? line).getD (blockAt seen seen.length))
    (hentries : q.strategy.entries =
      entriesFor (headers seen ++ (boundary? line).join.toList).eraseDups fun state =>
        filed seen state ++
          if blockAt seen seen.length = some state then (ruleOn? line).toList else []) :
    q.After (seen ++ [line]) where
  block := by
    rw [List.length_append, List.length_singleton, blockAt_concat]
    exact hblock
  entries := by
    have hfiled : filed (seen ++ [line]) = fun state => filed seen state ++
        if blockAt seen seen.length = some state then (ruleOn? line).toList else [] :=
      funext fun state => filed_concat
    rw [headers_concat, hfiled]
    exact hentries

/-- One line more is read as it should be, or it is faulty and refused. -/
theorem After.read (h : p.After seen) (line : String) :
    (∃ q, p.read (seen.length + 1) line = .ok q ∧ q.After (seen ++ [line]) ∧
      ∀ e, ¬ Faulty (seen ++ [line]) seen.length e) ∨
    ∃ e, p.read (seen.length + 1) line = .error e ∧ Faulty (seen ++ [line]) seen.length e := by
  by_cases hcounts : startsHeader line = true ∨ (blockAt seen seen.length).isSome = true
  · have hread : (p.block.isNone && !startsHeader line) = false := by
      rw [h.block]
      rcases hcounts with hstart | hin
      · simp [hstart]
      · simp [Option.ne_none_iff_isSome.mpr hin]
    simp only [Progress.read, hread, Bool.false_eq_true, if_false, faulty_last, hcounts, true_and]
    cases hclass : StrategyLine.classify line with
    | error e => exact .inr ⟨e, rfl, .inl rfl⟩
    | ok found =>
      cases found with
      | malformed why => exact .inr ⟨_, rfl, .inr ⟨why, rfl, rfl⟩⟩
      | blank =>
        have hboundary : boundary? line = some none := by simp [boundary?, hclass]
        have hrule : ruleOn? line = none := by simp [ruleOn?, hclass]
        refine .inl ⟨_, rfl, After.concat ?_ ?_, by simp⟩
        · simp [hboundary]
        · simpa [hboundary, hrule] using h.entries
      | header state =>
        have hboundary : boundary? line = some (some state) := by simp [boundary?, hclass]
        have hrule : ruleOn? line = none := by simp [ruleOn?, hclass]
        refine .inl ⟨_, rfl, After.concat ?_ ?_, by simp⟩
        · simp [hboundary]
        · have hdeclare : (p.strategy.declare state).entries =
              entriesFor (headers seen ++ [state]).eraseDups (filed seen) :=
            declare_entries h.entries filed_eq_nil
          simpa [hboundary, hrule] using hdeclare
      | rule rule =>
        have hboundary : boundary? line = none := by simp [boundary?, hclass]
        have hrule : ruleOn? line = some rule := by simp [ruleOn?, hclass]
        have hblock := h.block
        cases hin : p.block with
        | none =>
          rw [hin] at hblock
          refine .inl ⟨p, rfl, After.concat ?_ ?_, by simp⟩
          · simp [hboundary, hin, ← hblock]
          · simpa [hboundary, ← hblock] using h.entries
        | some state =>
          rw [hin] at hblock
          refine .inl ⟨_, rfl, After.concat ?_ ?_, by simp⟩
          · simp [hboundary, ← hblock]
          · have happend := append_entries (nodup_eraseDups _) h.entries state rule
            simpa [hboundary, hrule, ← hblock] using happend
  · obtain ⟨hstart, hout⟩ := not_or.mp hcounts
    have hnone : blockAt seen seen.length = none := by simpa using hout
    have hread : p.read (seen.length + 1) line = .ok p := by
      simp [Progress.read, h.block, hnone, hstart]
    -- The line is no header, and outside a block nothing else counts.
    have hboundary : (boundary? line).join = none := by
      by_contra hsome
      obtain ⟨state, hstate⟩ := Option.ne_none_iff_exists'.mp hsome
      exact hstart (startsHeader_of_boundary? (Option.join_eq_some_iff.mp hstate))
    refine .inl ⟨p, hread, After.concat ?_ ?_, fun e he => hcounts (faulty_last.mp he).1⟩
    · rw [h.block, hnone]
      cases hline : boundary? line with
      | none => rfl
      | some found => simpa [hline] using hboundary.symm
    · simpa [hboundary, hnone] using h.entries

/-- Lines are read as they should be up to the first faulty one. -/
theorem After.readAll (h : p.After seen) (hseen : ∀ i e, ¬ Faulty seen i e) (lines : List String) :
    (∃ q, p.readAll (seen.length + 1) lines = .ok q ∧ q.After (seen ++ lines) ∧
      ∀ i e, ¬ Faulty (seen ++ lines) i e) ∨
    ∃ i e, p.readAll (seen.length + 1) lines = .error e ∧ Faulty (seen ++ lines) i e ∧
      ∀ j < i, ∀ e', ¬ Faulty (seen ++ lines) j e' := by
  induction lines generalizing p seen with
  | nil => exact .inl ⟨p, rfl, by simpa using h, by simpa using hseen⟩
  | cons line lines ih =>
    have hsplit : seen ++ line :: lines = (seen ++ [line]) ++ lines := by simp
    have hbefore : ∀ j < seen.length, ∀ e', ¬ Faulty (seen ++ [line]) j e' := by
      intro j hj e'
      rw [faulty_append hj]
      exact hseen j e'
    simp only [Progress.readAll, hsplit]
    rcases h.read line with ⟨q, hread, hafter, hline⟩ | ⟨e, hread, hfault⟩
    · have hlines : ∀ i e, ¬ Faulty (seen ++ [line]) i e := by
        intro i e hfault
        have hlt : i < seen.length + 1 := by simpa using hfault.lt
        by_cases hi : i < seen.length
        · exact hbefore i hi e hfault
        · have heq : i = seen.length := by omega
          exact hline e (heq ▸ hfault)
      have hrest := ih hafter hlines
      rw [List.length_append, List.length_singleton] at hrest
      rw [hread]
      exact hrest
    · refine .inr ⟨seen.length, e, ?_, ?_, ?_⟩
      · rw [hread]
        rfl
      · rw [faulty_append (by simp)]
        exact hfault
      · intro j hj e'
        rw [faulty_append (by simp; omega)]
        exact hbefore j hj e'

end Progress

theorem ofLines_cases (lines : List String) :
    (∃ s, ofLines lines = .ok s ∧ s.entries = entriesFor (headers lines).eraseDups (filed lines) ∧
      ∀ i e, ¬ Faulty lines i e) ∨
    ∃ i e, ofLines lines = .error e ∧ Faulty lines i e ∧ ∀ j < i, ∀ e', ¬ Faulty lines j e' := by
  have hempty : Progress.After ⟨empty, none⟩ [] := ⟨rfl, rfl⟩
  have hnone : ∀ i e, ¬ Faulty [] i e := by simp [Faulty]
  rcases hempty.readAll hnone lines with ⟨p, hread, hafter, hfaults⟩ | ⟨i, e, hread, hfault⟩
  · refine .inl ⟨p.strategy, ?_, hafter.entries, hfaults⟩
    exact map_eq_ok.mpr ⟨p, hread, rfl⟩
  · exact .inr ⟨i, e, map_eq_error.mpr hread, hfault⟩

/-- A text fails with the error of its first faulty line. -/
theorem ofLines_eq_error_iff : ofLines lines = .error e ↔
    ∃ i, Faulty lines i e ∧ ∀ j < i, ∀ e', ¬ Faulty lines j e' := by
  constructor
  · intro h
    rcases ofLines_cases lines with ⟨s, hs, -⟩ | ⟨i, e', herror, hfirst⟩
    · rw [h] at hs
      cases hs
    · rw [h] at herror
      cases herror
      exact ⟨i, hfirst⟩
  · rintro ⟨i, hfault, hfirst⟩
    rcases ofLines_cases lines with ⟨-, -, -, hnone⟩ | ⟨i', e', herror, hfault', hfirst'⟩
    · exact absurd hfault (hnone i e)
    · have hi : i = i' := by
        rcases Nat.lt_trichotomy i i' with hlt | heq | hgt
        · exact absurd hfault (hfirst' i hlt e)
        · exact heq
        · exact absurd hfault' (hfirst i' hgt e')
      subst hi
      rw [herror, hfault.unique hfault']

/-- A strategy that is read has the states of the headers, each once and in the order of their first
headers, and for each the rules of all its blocks. A text that is not read is refused for the first
line that counts and is faulty, whatever follows it. -/
theorem ofLines_by_blocks (lines : List String) :
    (∃ s, ofLines lines = .ok s ∧ s.states.Nodup ∧ s.states = (headers lines).eraseDups ∧
      (∀ entry ∈ s.entries, entry.2 = filed lines entry.1) ∧ ∀ i e, ¬ Faulty lines i e) ∨
    ∃ i e, ofLines lines = .error e ∧ Faulty lines i e ∧ (∀ j < i, ∀ e', ¬ Faulty lines j e') ∧
      ∀ rest, ofLines (lines.take (i + 1) ++ rest) = .error e := by
  rcases ofLines_cases lines with ⟨s, hs, hentries, hnone⟩ | ⟨i, e, herror, hfault, hfirst⟩
  · have hstates : s.states = (headers lines).eraseDups := by
      simp [states, hentries, entriesFor, Function.comp_def]
    refine .inl ⟨s, hs, hstates ▸ nodup_eraseDups _, hstates, ?_, hnone⟩
    intro entry hentry
    rw [hentries] at hentry
    obtain ⟨state, -, rfl⟩ := List.mem_map.mp hentry
    rfl
  · refine .inr ⟨i, e, herror, hfault, hfirst, fun rest => ?_⟩
    have hsame : ∀ j ≤ i, ∀ e', Faulty (lines.take (i + 1) ++ rest) j e' ↔ Faulty lines j e' := by
      intro j hj e'
      have hlt := hfault.lt
      have htake : j < (lines.take (i + 1)).length := by
        rw [List.length_take]
        omega
      conv_rhs => rw [← List.take_append_drop (i + 1) lines]
      rw [faulty_append htake, faulty_append htake]
    rw [ofLines_eq_error_iff]
    refine ⟨i, (hsame i (le_refl i) e).mpr hfault, fun j hj e' => ?_⟩
    rw [hsame j hj.le]
    exact hfirst j hj e'

/-- Two blocks of one state are one entry, and a rule outside all blocks is lost. -/
example : ofLines ["State: ( S.A M.A )", "While you are in x, wait.", "", "While you are in y, wait.",
    "State: ( S.A M.A )", "While you are in z, wait."] =
      .ok ⟨[(⟨"S.A", "M.A", []⟩, [.delay "x", .delay "z"])]⟩ := by
  decide

end Strategy
end TimedMutation
