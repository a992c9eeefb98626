import TimedMutation.Proofs.Strategy.Written

/-! Every line of a written strategy is read as what it was written for. Free texts may hold what
looks like a mark of another part, so that each mark is shown to be found where it was written. -/

namespace TimedMutation

namespace StrategyLine

open Text

/-! ### The forms of lines -/

theorem classify_header {text : String} {rest : List Char} {state : StrategyState}
    (h : trimEnd text.toList = headerMark ++ rest) (hstate : state? rest = some state) :
    classify text = .ok (.header state) := by
  have hnonempty : (headerMark ++ rest).isEmpty = false := rfl
  simp only [classify, h, hnonempty, afterStart?_eq_some.mpr rfl, hstate]
  rfl

theorem classify_delay {text : String} {condition : List Char}
    (h : trimEnd text.toList = delayMark ++ (' ' :: condition ++ delayEnd)) :
    classify text = .ok (.rule (.delay (String.ofList (trim (' ' :: condition))))) := by
  have hnonempty : (delayMark ++ (' ' :: condition ++ delayEnd)).isEmpty = false := rfl
  have hheader : afterStart? headerMark (delayMark ++ (' ' :: condition ++ delayEnd)) = none := rfl
  simp only [classify, h, hnonempty, hheader, afterStart?_eq_some.mpr rfl,
    beforeEnd?_eq_some.mpr rfl]
  rfl

theorem classify_action {text : String} {condition descriptor rest : List Char} {found : ActionRule}
    (h : trimEnd text.toList = actionMark ++ ' ' :: rest)
    (hcut : cutAt? transitionMark (' ' :: rest) = some (condition, descriptor))
    (hfound : transition? (trim condition) (trim (withoutEnd skipMark descriptor)) = some found) :
    classify text = .ok (.rule (.action found)) := by
  have hnonempty : (actionMark ++ ' ' :: rest).isEmpty = false := rfl
  have hheader : afterStart? headerMark (actionMark ++ ' ' :: rest) = none := rfl
  have hdelay : afterStart? delayMark (actionMark ++ ' ' :: rest) = none := rfl
  have hblank : startsBlank (' ' :: rest) = true := rfl
  simp only [classify, h, hnonempty, hheader, hdelay, afterStart?_eq_some.mpr rfl, hcut, hblank,
    hfound, if_true, Bool.false_eq_true, if_false]

theorem classify_blank : classify "" = .ok .blank := by
  decide

/-! ### Headers -/

theorem withoutEnd_append (mark cs : List Char) : withoutEnd mark (cs ++ mark) = cs := by
  rw [withoutEnd, beforeEnd?_eq_some.mpr rfl]
  rfl

theorem withoutBrackets_eq_self {cs : List Char} (h : cs.head? ≠ some '[') :
    withoutBrackets cs = cs := by
  have hnone : afterStart? ['['] cs = none := by
    rw [Option.eq_none_iff_forall_ne_some]
    intro rest hrest
    rw [afterStart?_eq_some.mp hrest] at h
    exact h rfl
  rw [withoutBrackets, hnone]
  rfl

/-- The equalities of a header are read as they were written. -/
theorem equalities?_spaced {texts : List (List Char)}
    (hchars : ∀ text ∈ texts, ∀ c ∈ text, isBlank c = false ∧ c ≠ ',')
    (hequals : ∀ text ∈ texts, '=' ∈ text)
    (hbracket : ∀ text, texts.head? = some text → text.head? ≠ some '[') :
    equalities? (withoutBrackets (trim (spaced texts))) = some (texts.map String.ofList) := by
  cases texts with
  | nil => decide
  | cons text texts =>
    have hbare : ∀ t ∈ text :: texts, Bare t := fun t ht =>
      bare_of_no_blank (List.ne_nil_of_mem (hequals t ht)) fun c hc => (hchars t ht c hc).1
    obtain ⟨c, rest, hc, -⟩ := (hbare text (by simp)).starts
    have hkept : withoutBrackets (text ++ spaced texts) = text ++ spaced texts := by
      refine withoutBrackets_eq_self ?_
      have hhead := hbracket text rfl
      rw [hc] at hhead ⊢
      exact hhead
    have hsplit : (text ++ spaced texts).splitOnP (fun c => isBlank c || c == ',') =
        text :: texts := by
      refine splitOnP_spaced (by decide) ?_ ?_
      · intro t ht c hc
        simpa using hchars t (by simp [ht]) c hc
      · intro c hc
        simpa using hchars text (by simp) c hc
    have hfilter : (text :: texts).filter (fun t => !t.isEmpty) = text :: texts := by
      rw [List.filter_eq_self]
      intro t ht
      simpa using (hbare t ht).ne_nil
    have hall : (text :: texts).all (fun t => t.contains '=') = true := by
      rw [List.all_eq_true]
      intro t ht
      simpa using hequals t ht
    rw [trim_spaced hbare, hkept]
    simp only [equalities?, hsplit, hfilter, hall, if_true]

/-- What a header shows of a state between its marks. -/
def shown (s : StrategyState) : List Char :=
  '(' :: (pair s.first.toList s.second.toList ++ ')' :: spaced (s.equalities.map String.toList))

theorem toList_render_state (s : StrategyState) :
    s.render.toList = headerMark ++ ([' '] ++ (shown s ++ [' '] ++ spoilerMark)) := by
  have hopen : "State: ( ".toList = headerMark ++ [' ', '(', ' '] := rfl
  have hspace : " ".toList = [' '] := rfl
  have hclose : " )".toList = [' ', ')'] := rfl
  have hend : " [spoiler]".toList = ' ' :: spoilerMark := rfl
  have hequalities : (String.join (s.equalities.map (" " ++ ·))).toList =
      spaced (s.equalities.map String.toList) := by
    rw [String.toList_join, spaced, List.flatMap_map, List.flatMap_map]
    simp only [String.toList_append, hspace, List.cons_append, List.nil_append]
  have hpair : pair s.first.toList s.second.toList =
      ' ' :: (s.first.toList ++ ' ' :: (s.second.toList ++ [' '])) := by
    simp [pair, spaced]
  rw [StrategyState.render, shown, hpair]
  simp only [String.toList_append, hopen, hspace, hclose, hend, hequalities, List.append_assoc,
    List.cons_append, List.nil_append]

theorem bare_shown {s : StrategyState} (h : s.Writable) : Bare (shown s) := by
  have hopen : Bare ['('] := bare_of_any (by decide) (by decide)
  have hclose : Bare [')'] := bare_of_any (by decide) (by decide)
  have hpair := hopen.append hclose (pair s.first.toList s.second.toList)
  have hequalities : ∀ text ∈ s.equalities.map String.toList, Bare text := by
    intro text htext
    obtain ⟨e, he, rfl⟩ := List.mem_map.mp htext
    have hequality := h.equalities e he
    exact bare_of_no_blank (List.ne_nil_of_mem hequality.equals) fun c hc =>
      (hequality.chars c hc).1
  simpa [shown] using hpair.append_spaced hequalities

theorem bare_spoilerMark : Bare spoilerMark := bare_of_any (by decide) (by decide)

/-- The pair of locations ends at the parenthesis after it, and the rest are the equalities. -/
theorem state?_shown {s : StrategyState} (h : s.Writable) :
    state? ([' '] ++ (shown s ++ [' '] ++ spoilerMark)) = some s := by
  have hbare := bare_shown h
  have htrim : trim ([' '] ++ (shown s ++ [' '] ++ spoilerMark)) = shown s ++ [' '] ++ spoilerMark := by
    have hwhole := hbare.append bare_spoilerMark [' ']
    exact hwhole.trimmed.trim_cons (by decide)
  have hmark : withoutEnd spoilerMark (shown s ++ [' '] ++ spoilerMark) = shown s ++ [' '] :=
    withoutEnd_append _ _
  have hshown : trimEnd (shown s ++ [' ']) = shown s := by
    rw [trimEnd_append_of_allBlank (by decide), hbare.trimEnd_eq]
  have hopen : afterStart? ['('] (shown s) = some (pair s.first.toList s.second.toList ++
      ')' :: spaced (s.equalities.map String.toList)) := afterStart?_eq_some.mpr rfl
  have hcut : cutAt? [')'] (pair s.first.toList s.second.toList ++
      ')' :: spaced (s.equalities.map String.toList)) =
        some (pair s.first.toList s.second.toList, spaced (s.equalities.map String.toList)) := by
    have hfirst : ')' ∉ s.first.toList := fun hc => (h.first.chars _ hc).2 rfl
    have hsecond : ')' ∉ s.second.toList := fun hc => (h.second.chars _ hc).2 rfl
    refine cutAt?_append ?_ _
    simp [pair, spaced, hfirst, hsecond]
  have hwords : words (pair s.first.toList s.second.toList) = [s.first.toList, s.second.toList] :=
    words_pair h.first.ne_nil h.second.ne_nil (fun c hc => (h.first.chars c hc).1)
      fun c hc => (h.second.chars c hc).1
  have hequalities : equalities? (withoutBrackets (trim (spaced (s.equalities.map String.toList)))) =
      some s.equalities := by
    rw [equalities?_spaced]
    · simp [Function.comp_def]
    · simpa [FreeOf] using fun e he => (h.equalities e he).chars
    · simpa using fun e he => (h.equalities e he).equals
    · simpa using h.bracket
  simp only [state?, htrim, hmark, hshown, hopen, hcut, hwords, hequalities, Option.bind_eq_bind,
    Option.bind_some, Option.pure_def, String.ofList_toList]

theorem trimEnd_render_state (s : StrategyState) : trimEnd s.render.toList = s.render.toList := by
  rw [toList_render_state, ← List.append_assoc, ← List.append_assoc]
  exact bare_spoilerMark.trimEnd_append _

theorem isLine_render_state {s : StrategyState} (h : s.Writable) : IsLine s.render := by
  have hfirst := isLine_of_no_blank fun c hc => (h.first.chars c hc).1
  have hsecond := isLine_of_no_blank fun c hc => (h.second.chars c hc).1
  have hequalities : IsLine (String.join (s.equalities.map (" " ++ ·))) := by
    rw [IsLine, String.toList_join, List.flatMap_map, List.mem_flatMap]
    rintro ⟨e, he, hmem⟩
    have hline := isLine_of_no_blank fun c hc => ((h.equalities e he).chars c hc).1
    exact isLine_append.mpr ⟨by decide, hline⟩ hmem
  unfold StrategyState.render
  simp only [isLine_append, hfirst, hsecond, hequalities, and_true]
  decide

/-- A header is read as the state that it was written for. -/
theorem classify_render_state {s : StrategyState} (h : s.Writable) :
    classify s.render = .ok (.header s) := by
  refine classify_header ?_ (state?_shown h)
  rw [trimEnd_render_state, toList_render_state]

/-! ### Rules -/

theorem toList_render_delay (condition : String) : (WrittenRule.delay condition).render.toList =
    delayMark ++ (' ' :: condition.toList ++ delayEnd) := by
  have hstart : "While you are in ".toList = delayMark ++ [' '] := by decide
  have hend : ", wait.".toList = delayEnd := rfl
  change ("While you are in " ++ condition ++ ", wait.").toList = _
  rw [String.toList_append, String.toList_append, hstart, hend, List.append_assoc,
    List.append_assoc]
  rfl

theorem trimEnd_render_delay (condition : String) :
    trimEnd (WrittenRule.delay condition).render.toList =
      (WrittenRule.delay condition).render.toList := by
  have hbare : Bare delayEnd := ⟨⟨',', _, rfl, by decide⟩, ⟨'.', _, rfl, by decide⟩⟩
  rw [toList_render_delay, ← List.append_assoc]
  exact hbare.trimEnd_append _

theorem isLine_render_delay {condition : String} (h : IsLine condition) :
    IsLine (WrittenRule.delay condition).render := by
  change IsLine ("While you are in " ++ condition ++ ", wait.")
  simp only [isLine_append, h]
  decide

theorem classify_render_delay {condition : String} (h : Trimmed condition.toList) :
    classify (WrittenRule.delay condition).render = .ok (.rule (.delay condition)) := by
  have hline := (trimEnd_render_delay condition).trans (toList_render_delay condition)
  rw [classify_delay hline, Trimmed.trim_cons h (by decide), String.ofList_toList]

theorem splitLabel?_actionText (direction : Direction) (label : String) :
    Direction.splitLabel? (direction.actionText label) = some (label, direction) := by
  cases direction <;> simp [Direction.splitLabel?, Direction.actionText, Direction.mark]

/-- An action text ends with its mark, so that it is none of the texts for no action. -/
theorem sync?_syncText (sync : Option (String × Direction)) :
    sync? (WrittenRule.syncText sync).toList = some sync := by
  cases sync with
  | none => decide
  | some action =>
    obtain ⟨label, direction⟩ := action
    have htext : (direction.actionText label).toList = label.toList ++ [direction.mark] := by
      simp [Direction.actionText]
    have hmark : direction.mark ≠ '1' ∧ direction.mark ≠ 'u' := by
      cases direction <;> decide
    have hlast : ∀ cs : List Char, label.toList ++ [direction.mark] = cs →
        cs.getLast? = some direction.mark := by
      rintro cs rfl
      simp
    have hone : label.toList ++ [direction.mark] ≠ ['1'] := fun heq =>
      hmark.1 (by simpa using (hlast _ heq).symm)
    have htau : label.toList ++ [direction.mark] ≠ ['t', 'a', 'u'] := fun heq =>
      hmark.2 (by simpa using (hlast _ heq).symm)
    simp only [WrittenRule.syncText]
    rw [sync?, htext, if_neg (by simp [hone, htau]), ← htext, String.ofList_toList,
      splitLabel?_actionText]
    rfl

theorem freeOf_syncText {sync : Option (String × Direction)}
    (h : ∀ action ∈ sync, FreeOf ',' action.1) : FreeOf ',' (WrittenRule.syncText sync) := by
  cases sync with
  | none => decide
  | some action =>
    obtain ⟨label, direction⟩ := action
    intro c hc
    simp only [WrittenRule.syncText, Direction.actionText, String.toList_push, List.mem_append,
      List.mem_singleton] at hc
    rcases hc with hc | rfl
    · exact h (label, direction) rfl c hc
    · cases direction <;> decide

theorem syncText_ne_nil (sync : Option (String × Direction)) :
    (WrittenRule.syncText sync).toList ≠ [] := by
  cases sync with
  | none => decide
  | some action => simp [WrittenRule.syncText, Direction.actionText]

theorem trimmed_updateText {update : String} (h : Trimmed update.toList) :
    Trimmed (WrittenRule.updateText update).toList := by
  unfold WrittenRule.updateText
  split
  · decide
  · exact h

/-- An update is read as it was written, and the `1` in place of one without a text as none. -/
theorem update_updateText {update : String} (h : update ≠ "1") :
    (if (WrittenRule.updateText update).toList == ['1'] then ""
      else WrittenRule.updateText update) = update := by
  unfold WrittenRule.updateText
  split
  · rename_i hnone
    rw [hnone]
    rfl
  · have hother : update.toList ≠ ['1'] := fun heq => h (String.toList_inj.mp heq)
    simp [hother]

theorem qualified?_written {process location : List Char} (hprocess : isWord process = true)
    (hlocation : isWord location = true) :
    qualified? (process ++ '.' :: location) = some (process, location) := by
  have hdot : '.' ∉ process := not_mem_of_isWord hprocess isWordChar_of_mark.1
  rw [qualified?, cutAt?_append hdot]
  simp [hprocess, hlocation]

/-- The edge that a descriptor names. -/
def shownEdge (rule : ActionRule) (source : String) : List Char :=
  (rule.process.toList ++ '.' :: source.toList) ++ ['-', '>'] ++
    (rule.process.toList ++ '.' :: rule.destination.toList)

/-- What a descriptor says in braces. -/
def shownAction (rule : ActionRule) (selection : String) : List Char :=
  ' ' :: selection.toList ++ ',' :: (' ' :: (WrittenRule.syncText rule.sync).toList ++
    ',' :: (' ' :: (WrittenRule.updateText rule.update).toList ++ [' ']))

def shownTransition (rule : ActionRule) (source selection : String) : List Char :=
  shownEdge rule source ++ [' '] ++ '\x7b' :: (shownAction rule selection ++ ['\x7d'])

theorem toList_descriptor (rule : ActionRule) (source selection : String) :
    (WrittenRule.descriptor rule source selection).toList = shownTransition rule source selection := by
  have hdot : ".".toList = ['.'] := rfl
  have harrow : "->".toList = ['-', '>'] := rfl
  have hopen : " \x7b ".toList = [' ', '\x7b', ' '] := rfl
  have hcomma : ", ".toList = [',', ' '] := rfl
  have hclose : " \x7d".toList = [' ', '\x7d'] := rfl
  unfold WrittenRule.descriptor shownTransition shownEdge shownAction
  simp only [String.toList_append, hdot, harrow, hopen, hcomma, hclose, List.append_assoc,
    List.cons_append, List.nil_append]

variable {rule : ActionRule} {source selection : String}

theorem bare_shownEdge (h : rule.Writable source selection) : Bare (shownEdge rule source) := by
  have hedge := (bare_of_isWord h.process).append (bare_of_isWord h.destination)
    ('.' :: source.toList ++ ['-', '>'] ++ (rule.process.toList ++ ['.']))
  simpa [shownEdge] using hedge

theorem not_mem_shownEdge (h : rule.Writable source selection) {c : Char}
    (hword : isWordChar c = false) (hmarks : c ∉ ['.', '-', '>']) : c ∉ shownEdge rule source := by
  have hprocess := not_mem_of_isWord h.process hword
  have hsource := not_mem_of_isWord h.source hword
  have hdestination := not_mem_of_isWord h.destination hword
  simp only [List.mem_cons, List.not_mem_nil, or_false, not_or] at hmarks
  simp [shownEdge, hprocess, hsource, hdestination, hmarks]

/-- The action, the label and the update of a rule stand between the commas of its descriptor. -/
theorem fields_shownAction (h : rule.Writable source selection) :
    ∃ afterSelection label update,
      cutAt? [','] (shownAction rule selection) = some (' ' :: selection.toList, afterSelection) ∧
      cutAt? [','] afterSelection = some (label, update) ∧
      trim label = (WrittenRule.syncText rule.sync).toList ∧
      trim update = (WrittenRule.updateText rule.update).toList := by
  have hchars := freeOf_syncText h.label
  have hselection : ',' ∉ ' ' :: selection.toList := by simp [h.selection]
  have hlabel : ',' ∉ ' ' :: (WrittenRule.syncText rule.sync).toList := by
    rw [List.mem_cons, not_or]
    exact ⟨by decide, fun hc => (hchars _ hc).2 rfl⟩
  have hbare : Bare (WrittenRule.syncText rule.sync).toList :=
    bare_of_no_blank (syncText_ne_nil rule.sync) fun c hc => (hchars c hc).1
  have hupdate : Trimmed (WrittenRule.updateText rule.update).toList :=
    trimmed_updateText h.update.trimmed
  have htrim : trim ([' '] ++ (WrittenRule.updateText rule.update).toList ++ [' ']) =
      (WrittenRule.updateText rule.update).toList := hupdate.trim_between rfl rfl
  exact ⟨_, _, _, cutAt?_append hselection _, cutAt?_append hlabel _,
    hbare.trimmed.trim_cons (by decide), htrim⟩

/-- Every mark of a descriptor is found where it was written. -/
theorem transition?_shownTransition (h : rule.Writable source selection) :
    transition? rule.condition.toList (shownTransition rule source selection) = some rule := by
  have hbody : cutAt? ['\x7b'] (shownTransition rule source selection) =
      some (shownEdge rule source ++ [' '], shownAction rule selection ++ ['\x7d']) := by
    refine cutAt?_append ?_ _
    have hedge := not_mem_shownEdge h isWordChar_of_mark.2.2 (by decide)
    simp [hedge]
  have hclosed : beforeEnd? ['\x7d'] (trimEnd (shownAction rule selection ++ ['\x7d'])) =
      some (shownAction rule selection) := by
    have hbare : Bare ['\x7d'] := bare_of_any (by decide) (by decide)
    rw [hbare.trimEnd_append]
    exact beforeEnd?_eq_some.mpr rfl
  have htrim : trim (shownEdge rule source ++ [' ']) = shownEdge rule source :=
    (bare_shownEdge h).trim_concat (by decide)
  have harrow : cutAt? ['-', '>'] (shownEdge rule source) =
      some (rule.process.toList ++ '.' :: source.toList,
        rule.process.toList ++ '.' :: rule.destination.toList) := by
    have hdash := isWordChar_of_mark.2.1
    have hprocess := not_mem_of_isWord h.process hdash
    have hsource := not_mem_of_isWord h.source hdash
    exact cutAt?_append_of_not_mem (by decide) (by simp [hprocess, hsource]) _
  have hleft := qualified?_written h.process h.source
  have hright := qualified?_written h.process h.destination
  obtain ⟨afterSelection, label, update, hselection, hlabel, hsync, hupdate⟩ := fields_shownAction h
  have hresult := update_updateText h.update_ne
  simp only [transition?, hbody, hclosed, htrim, harrow, hleft, hright, hselection, hlabel, hsync,
    hupdate, sync?_syncText, hresult, Option.bind_eq_bind, Option.bind_some, Option.pure_def,
    String.ofList_toList]

theorem toList_render_action (rule : ActionRule) (source selection : String) :
    (WrittenRule.action rule source selection).render.toList =
      actionMark ++ ' ' :: (rule.condition.toList ++ transitionMark ++
        (shownTransition rule source selection ++ [' '] ++ skipMark)) := by
  have hstart : "When you are in ".toList = actionMark ++ [' '] := by decide
  have hmark : ", take transition ".toList = transitionMark := rfl
  have hend : " [SKIP]".toList = [' '] ++ skipMark := by decide
  change ("When you are in " ++ rule.condition ++ ", take transition " ++
    WrittenRule.descriptor rule source selection ++ " [SKIP]").toList = _
  rw [String.toList_append, String.toList_append, String.toList_append, String.toList_append,
    toList_descriptor, hstart, hmark, hend]
  generalize skipMark = skip
  generalize transitionMark = mark
  generalize actionMark = start
  simp

theorem bare_shownTransition (h : rule.Writable source selection) :
    Bare (shownTransition rule source selection) := by
  have hclose : Bare ['\x7d'] := bare_of_any (by decide) (by decide)
  have hwhole := (bare_shownEdge h).append hclose ([' '] ++ '\x7b' :: shownAction rule selection)
  simpa [shownTransition] using hwhole

theorem trimEnd_render_action (rule : ActionRule) (source selection : String) :
    trimEnd (WrittenRule.action rule source selection).render.toList =
      (WrittenRule.action rule source selection).render.toList := by
  have hskip : Bare skipMark := bare_of_any (by decide) (by decide)
  have hends := hskip.trimEnd_append (actionMark ++ ' ' :: (rule.condition.toList ++
    transitionMark ++ (shownTransition rule source selection ++ [' '])))
  rw [toList_render_action]
  generalize skipMark = skip at hends ⊢
  generalize transitionMark = mark at hends ⊢
  generalize actionMark = start at hends ⊢
  simpa using hends

theorem isLine_updateText {update : String} (h : IsLine update) :
    IsLine (WrittenRule.updateText update) := by
  unfold WrittenRule.updateText
  split
  · decide
  · exact h

theorem isLine_render_action (h : rule.Writable source selection) :
    IsLine (WrittenRule.action rule source selection).render := by
  have hsync := isLine_of_no_blank fun c hc => (freeOf_syncText h.label c hc).1
  have hdescriptor : IsLine (WrittenRule.descriptor rule source selection) := by
    unfold WrittenRule.descriptor
    simp only [isLine_append, isLine_of_isWord h.process, isLine_of_isWord h.source,
      isLine_of_isWord h.destination, h.selection_line, hsync, isLine_updateText h.update.line]
    decide
  change IsLine ("When you are in " ++ rule.condition ++ ", take transition " ++
    WrittenRule.descriptor rule source selection ++ " [SKIP]")
  simp only [isLine_append, h.condition.line, hdescriptor]
  decide

/-- The condition ends at the first mark of a descriptor, and the rule is read as it was written. -/
theorem classify_render_action (h : rule.Writable source selection) :
    classify (WrittenRule.action rule source selection).render = .ok (.rule (.action rule)) := by
  have hline := (trimEnd_render_action rule source selection).trans
    (toList_render_action rule source selection)
  have hcut : cutAt? transitionMark (' ' :: (rule.condition.toList ++ transitionMark ++
      (shownTransition rule source selection ++ [' '] ++ skipMark))) =
        some (' ' :: rule.condition.toList,
          shownTransition rule source selection ++ [' '] ++ skipMark) := by
    have hmark : ¬ (',' :: " take transition ".toList) <:+: ' ' :: rule.condition.toList := by
      rw [List.infix_cons_iff, not_or]
      refine ⟨?_, h.mark⟩
      rintro ⟨rest, hrest⟩
      cases (List.cons.inj hrest).1
    exact cutAt?_append_mark (by decide) hmark _
  have hdescriptor : trim (withoutEnd skipMark (shownTransition rule source selection ++ [' '] ++
      skipMark)) = shownTransition rule source selection := by
    rw [withoutEnd_append]
    exact (bare_shownTransition h).trim_concat (by decide)
  refine classify_action hline hcut ?_
  rw [Trimmed.trim_cons h.condition.trimmed (by decide), hdescriptor]
  exact transition?_shownTransition h

end StrategyLine

namespace WrittenRule

variable {rule : WrittenRule}

theorem classify_render (h : rule.Writable) :
    StrategyLine.classify rule.render = .ok (.rule rule.rule) := by
  cases rule with
  | delay condition => exact StrategyLine.classify_render_delay h.trimmed
  | action rule source selection => exact StrategyLine.classify_render_action h

theorem isLine_render (h : rule.Writable) : IsLine rule.render := by
  cases rule with
  | delay condition => exact StrategyLine.isLine_render_delay h.line
  | action rule source selection => exact StrategyLine.isLine_render_action h

theorem trimEnd_render (rule : WrittenRule) : Text.trimEnd rule.render.toList = rule.render.toList := by
  cases rule with
  | delay condition => exact StrategyLine.trimEnd_render_delay condition
  | action rule source selection => exact StrategyLine.trimEnd_render_action rule source selection

end WrittenRule

end TimedMutation
