import TimedMutation.Proofs.Expr.Depth
import TimedMutation.Proofs.Update.Assign

/-! An update is read back from its text: the assignments that were read, in any order and choice, are
read again from what is written for them. -/

namespace TimedMutation

/-! ### Characters of expressions -/

theorem Token.Spells.comma_not_mem {t : Token} {w : List Char} (h : Spells t w) : ',' ∉ w := by
  refine h.not_mem (by decide) (by decide) ?_
  cases t with
  | number | name => simp [mark]
  | compare op => cases op <;> decide
  | _ => decide

theorem Token.Written.comma_not_mem {ts : List Token} {cs : List Char} (h : Written ts cs) :
    ',' ∉ cs := by
  induction h with
  | nil => simp
  | @blank ts c cs hc _ ih =>
    have hcomma : ',' ≠ c := by
      rintro rfl
      cases hc
    simp [hcomma, ih]
  | token hw _ _ ih => simp [hw.comma_not_mem, ih]

namespace Assignment

variable {text : String} {a : Assignment}

/-- The two sides of the equals sign from which an assignment is read. -/
theorem sides_of_ofText (h : ofText text = .ok a) :
    ∃ before after, text.toList = before ++ '=' :: after ∧ '=' ∉ before ∧
      Text.trim ((Text.beforeEnd? [':'] before).getD before) = a.target.toList ∧
      Text.trim after = a.value.toList := by
  simp only [ofText] at h
  split at h
  · cases h
  · rename_i before after hcut
    split at h
    · cases h
    · split at h
      · cases h
      · obtain ⟨expr, -, h⟩ := bind_eq_ok.mp h
        cases pure_eq_ok.mp h
        have htext := Text.eq_of_cutAt? hcut
        exact ⟨before, after, by simpa using htext, Text.not_mem_of_cutAt? hcut,
          String.toList_ofList.symm, String.toList_ofList.symm⟩

/-- A colon at the end of a text is not lost or gained by trimming its start. -/
theorem trim_beforeColon (before : List Char) :
    Text.trim ((Text.beforeEnd? [':'] (Text.trimStart before)).getD (Text.trimStart before)) =
      Text.trim ((Text.beforeEnd? [':'] before).getD before) := by
  cases hcolon : Text.beforeEnd? [':'] before with
  | some name =>
    obtain rfl := Text.beforeEnd?_eq_some.mp hcolon
    have hstart : Text.beforeEnd? [':'] (Text.trimStart (name ++ [':'])) =
        some (Text.trimStart name) :=
      Text.beforeEnd?_eq_some.mpr (Text.trimStart_append_cons (by decide) name [])
    rw [hstart]
    exact Text.trim_trimStart name
  | none =>
    obtain ⟨blanks, -, htext⟩ := Text.exists_trimStart before
    have hnone : Text.beforeEnd? [':'] (Text.trimStart before) = none := by
      rw [Option.eq_none_iff_forall_ne_some]
      intro name hname
      rw [Text.beforeEnd?_eq_some.mp hname, ← List.append_assoc] at htext
      rw [Text.beforeEnd?_eq_some.mpr htext] at hcolon
      cases hcolon
    rw [hnone]
    exact Text.trim_trimStart before

/-- The assignment with a text that has no white space around it. -/
def trimmed (a : Assignment) : Assignment := { a with text := String.ofList (Text.trim a.text.toList) }

/-- White space around the text of an assignment is not part of it. -/
theorem ofText_trimmed (h : ofText a.text = .ok a) : ofText a.trimmed.text = .ok a.trimmed := by
  obtain ⟨before, after, htext, hequals, htarget, hvalue⟩ := sides_of_ofText h
  obtain ⟨-, hname, hexpr, -⟩ := of_ofText h
  have hbefore : '=' ∉ Text.trimStart before := fun hmem =>
    hequals ((List.dropWhile_sublist Text.isBlank).subset hmem)
  have hcut : Text.cutAt? ['='] a.trimmed.text.toList =
      some (Text.trimStart before, Text.trimEnd after) := by
    rw [trimmed, String.toList_ofList, htext, Text.trim_append_cons (by decide),
      Text.cutAt?_append hbefore]
  refine ofText_of_cut hcut ?_ hname ?_ (Expr.start_of_ofText hexpr) hexpr
  · rw [trim_beforeColon, htarget]
  · rw [Text.trim_trimEnd, hvalue]

theorem mem_before {before : List Char} {c : Char}
    (hname : isIdentifier (Text.trim ((Text.beforeEnd? [':'] before).getD before)) = true)
    (hc : c ∈ before) : isNameChar c = true ∨ Text.isBlank c = true ∨ c = ':' := by
  have hmem : ∀ {cs : List Char}, isIdentifier (Text.trim cs) = true → c ∈ cs →
      isNameChar c = true ∨ Text.isBlank c = true ∨ c = ':' := by
    intro cs hcs hc
    rcases Text.mem_trim_or_blank hc with hmem | hblank
    · exact .inl (isNameChar_of_isIdentifier hcs hmem)
    · exact .inr (.inl hblank)
  cases hcolon : Text.beforeEnd? [':'] before with
  | some name =>
    rw [hcolon] at hname
    rw [Text.beforeEnd?_eq_some.mp hcolon, List.mem_append, List.mem_singleton] at hc
    rcases hc with hc | rfl
    · exact hmem hname hc
    · exact .inr (.inr rfl)
  | none =>
    rw [hcolon] at hname
    exact hmem hname hc

/-- The text of an assignment has no commas, and no parentheses are open at its end. -/
theorem separates_of_ofText (h : ofText text = .ok a) :
    ',' ∉ text.toList ∧ text.toList.foldl Text.depthAfter 0 = 0 := by
  obtain ⟨before, after, htext, -, htarget, hvalue⟩ := sides_of_ofText h
  obtain ⟨-, hname, hexpr, -⟩ := of_ofText h
  obtain ⟨ts, hwritten, hphrase⟩ := Expr.ofText_eq_ok.mp hexpr
  rw [← hvalue] at hwritten
  rw [← htarget] at hname
  -- Before the equals sign there are a name, white space and a colon at most.
  have hfree : ∀ c : Char, isNameChar c = false → Text.isBlank c = false → c ≠ ':' → c ∉ before := by
    intro c hnone hblank hcolon hc
    rcases mem_before hname hc with hc | hc | hc
    · simp [hnone] at hc
    · simp [hblank] at hc
    · exact hcolon hc
  have hvalueComma : ',' ∉ after := fun hc =>
    (Text.mem_trim_or_blank hc).elim hwritten.comma_not_mem (by decide)
  constructor
  · have hcomma := hfree ',' (by decide) (by decide) (by decide)
    simp [htext, hcomma, hvalueComma]
  · have hopen := hfree '(' (by decide) (by decide) (by decide)
    have hclose := hfree ')' (by decide) (by decide) (by decide)
    have hequals : Text.depthAfter 0 '=' = 0 := by decide
    rw [htext, List.foldl_append, Text.foldl_depthAfter_of_not_mem hopen hclose, List.foldl_cons,
      hequals, ← Text.foldl_depthAfter_trim, hwritten.foldl_depthAfter, hphrase.depth_eq]
    rfl

end Assignment

namespace Update

variable {u mutated : Update} {name value : String}

/-- All assignments are as they are read from their texts. -/
def Reads (u : Update) : Prop := ∀ a ∈ u.assignments, Assignment.ofText a.text = .ok a

theorem reads_of_ofText {text : String} (h : ofText text = .ok u) : u.Reads :=
  fun _ => assignment_of_ofText h

theorem Reads.target (h : u.Reads) {a : Assignment} (ha : a ∈ u.assignments) :
    Assignment.isIdentifier a.target.toList = true :=
  (Assignment.of_ofText (h a ha)).2.1

theorem Reads.erase (h : u.Reads) (k : ℕ) : (u.erase k).Reads :=
  fun a ha => h a (List.mem_of_mem_eraseIdx ha)

theorem Reads.assign (h : u.Reads) (hassign : u.assign name value = .ok mutated) :
    mutated.Reads := by
  obtain ⟨a, ha, hassign⟩ := bind_eq_ok.mp hassign
  have hread : Assignment.ofText a.text = .ok a := by rwa [(Assignment.of_ofText ha).1]
  split at hassign
  · cases pure_eq_ok.mp hassign
    intro b hb
    rcases List.mem_or_eq_of_mem_set hb with hb | rfl
    · exact h b hb
    · exact hread
  · cases pure_eq_ok.mp hassign
    intro b hb
    rcases List.mem_append.mp hb with hb | hb
    · exact h b hb
    · cases List.mem_singleton.mp hb
      exact hread

/-- The texts of assignments stay apart with commas between them. -/
theorem separated_texts (h : u.Reads) (hne : u.assignments ≠ []) : Text.Separated [','] 0 (u.texts.map String.toList) := by
  refine Text.separated_of_forall (by simpa [texts] using hne) ?_
  simp only [texts, List.map_map, List.mem_map, Function.comp_apply]
  rintro _ ⟨a, ha, rfl⟩
  obtain ⟨hcomma, hdepth⟩ := Assignment.separates_of_ofText (h a ha)
  exact ⟨Text.whole_of_not_mem hcomma 0, hdepth⟩

theorem toList_render (u : Update) :
    u.render.toList = [',', ' '].intercalate (u.texts.map String.toList) := by
  rw [render, String.toList_intercalate]
  rfl

/-- There is an equals sign in what is written for assignments. -/
theorem some_render (h : u.Reads) (hne : u.assignments ≠ []) :
    ((Text.trim u.render.toList).isEmpty || Text.trim u.render.toList == ['1']) = false := by
  obtain ⟨a, rest, hassignments⟩ := List.exists_cons_of_ne_nil hne
  have hequals := Assignment.equals_mem_of_ofText (h a (by simp [hassignments]))
  have hcount : 0 < (Text.trim u.render.toList).count '=' := by
    rw [Text.count_trim (by decide), count_render, texts, hassignments, List.map_cons,
      Text.occurrences_cons]
    exact Nat.add_pos_left (List.count_pos_iff.mpr hequals) _
  have hmem := List.count_pos_iff.mp hcount
  generalize Text.trim u.render.toList = cs at hmem
  cases cs with
  | nil => cases hmem
  | cons c cs =>
    simp only [List.isEmpty_cons, Bool.false_or, beq_eq_false_iff_ne]
    rintro ⟨rfl, rfl⟩
    exact absurd hmem (by decide)

/-- Assignments that were read are read again, with the white space around them gone. -/
theorem ofText_render (h : u.Reads) :
    ofText u.render = .ok ⟨u.assignments.map Assignment.trimmed⟩ := by
  by_cases hne : u.assignments = []
  · obtain ⟨assignments⟩ := u
    obtain rfl : assignments = [] := hne
    rfl
  · have hpieces := Text.map_trim_splitTopLevel [] [' '] [] [] (by simp; decide) rfl rfl (by simp)
      (separated_texts h hne) rfl rfl
    have hmarks : ([] : List Char) ++ [','] ++ [' '] = [',', ' '] := rfl
    rw [List.nil_append, List.append_nil, hmarks, ← toList_render,
      ← Text.map_trim_splitTopLevel_trim (by simp; decide) (by decide)] at hpieces
    have hparts := congrArg (List.map String.ofList) hpieces
    simp only [texts, List.map_map, Function.comp_def] at hparts
    refine ofText_of_parts (some_render h hne) hparts (mapM_of_forall₂ ?_)
    rw [List.forall₂_map_left_iff, List.forall₂_map_right_iff, List.forall₂_same]
    exact fun a ha => Assignment.ofText_trimmed (h a ha)

end Update

end TimedMutation
