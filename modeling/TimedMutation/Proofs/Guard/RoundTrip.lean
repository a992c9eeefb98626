import TimedMutation.Proofs.Guard.Relations
import TimedMutation.Proofs.Text.Joined

/-! A conjunction is read back from its text, also after one of its parts was replaced. -/

namespace TimedMutation.Conjunction

variable {text : String} {guard : Conjunction} {parts : List String}

/-- The parts that were read are not empty, have no white space around them and stay apart. -/
theorem bare_of_ofText (h : ofText text = .ok guard) : ∀ part ∈ guard.parts, Text.Bare part.toList := by
  intro part hpart
  simp only [ofText] at h
  split at h
  · cases h
    cases hpart
  · split at h
    · cases h
    · rename_i hempty
      cases h
      simp only [List.map_map, List.mem_map, Function.comp_apply] at hpart
      obtain ⟨piece, hpiece, rfl⟩ := hpart
      rw [String.toList_ofList]
      refine Text.bare_trim fun hnil => hempty ?_
      simpa using ⟨piece, hpiece, hnil⟩

theorem separated_of_ofText (h : ofText text = .ok guard) (hne : guard.parts ≠ []) :
    Text.Separated ['&', '&'] 0 (guard.parts.map String.toList) := by
  rcases parts_of_ofText h with ⟨-, hnil⟩ | hparts
  · exact absurd hnil hne
  · have hpieces := (Text.separated_splitTopLevel ['&', '&'] text.toList).map_trim
    simpa [hparts, Function.comp_def] using hpieces

/-- A text of which no piece is blank is read as these pieces. -/
theorem ofText_of_ne_nil
    (h : ∀ piece ∈ Text.splitTopLevel ['&', '&'] text.toList, Text.trim piece ≠ []) :
    ofText text = .ok ⟨(Text.splitTopLevel ['&', '&'] text.toList).map fun piece =>
      String.ofList (Text.trim piece)⟩ := by
  have hblank : Text.allBlank text.toList = false := by
    -- White space would be one piece with nothing in it.
    rw [Bool.eq_false_iff]
    intro hall
    have hwhole : Text.Whole ['&', '&'] 0 text.toList :=
      Text.whole_of_not_mem (Text.not_mem_of_allBlank hall rfl) 0
    refine h text.toList (by rw [Text.splitTopLevel, hwhole]; exact List.mem_singleton.mpr rfl) ?_
    rw [Text.trim, Text.trimStart_eq_nil.mpr hall]
    rfl
  have hempty : ((Text.splitTopLevel ['&', '&'] text.toList).map Text.trim).any List.isEmpty =
      false := by
    simpa using h
  simp [ofText, hblank, hempty, Function.comp_def]

/-- Parts that stay apart are read again. -/
theorem ofText_render (hbare : ∀ part ∈ parts, Text.Bare part.toList)
    (hseparated : Text.Separated ['&', '&'] 0 (parts.map String.toList)) :
    ofText (Conjunction.mk parts).render = .ok ⟨parts⟩ := by
  have hpieces := Text.map_trim_splitTopLevel [' '] [' '] [] [] (by simp; decide) rfl rfl
    (by simp) hseparated rfl rfl
  have htrimmed : (parts.map String.toList).map Text.trim = parts.map String.toList := by
    rw [List.map_map]
    exact List.map_congr_left fun part hpart => (hbare part hpart).trimmed
  have htext : (Conjunction.mk parts).render.toList =
      [' ', '&', '&', ' '].intercalate (parts.map String.toList) := by
    rw [render, String.toList_intercalate]
    rfl
  have hmarks : [' '] ++ ['&', '&'] ++ [' '] = [' ', '&', '&', ' '] := rfl
  rw [List.nil_append, List.append_nil, hmarks, ← htext, htrimmed] at hpieces
  have hsome : ∀ piece ∈ Text.splitTopLevel ['&', '&'] (Conjunction.mk parts).render.toList,
      Text.trim piece ≠ [] := by
    intro piece hpiece
    have hmem : Text.trim piece ∈ parts.map String.toList := hpieces ▸ List.mem_map_of_mem hpiece
    obtain ⟨part, hpart, hsame⟩ := List.mem_map.mp hmem
    exact hsame ▸ (hbare part hpart).ne_nil
  have hparts := congrArg (List.map String.ofList) hpieces
  simp only [List.map_map, Function.comp_def, String.ofList_toList, List.map_id'] at hparts
  rw [ofText_of_ne_nil hsome, hparts]

/-- A conjunction is read back with a part replaced, if nothing separates the new part and it is as deep
in parentheses at its end as the old one. -/
theorem ofText_set (h : ofText text = .ok guard) {k : ℕ} {part new : String}
    (hk : guard.parts[k]? = some part) (hbare : Text.Bare new.toList)
    (hwhole : Text.Whole ['&', '&'] 0 part.toList → Text.Whole ['&', '&'] 0 new.toList)
    (hdepth : new.toList.foldl Text.depthAfter 0 = part.toList.foldl Text.depthAfter 0) :
    ofText (Conjunction.mk (guard.parts.set k new)).render = .ok ⟨guard.parts.set k new⟩ := by
  refine ofText_render (fun p hp => ?_) ?_
  · rcases List.mem_or_eq_of_mem_set hp with hp | rfl
    · exact bare_of_ofText h p hp
    · exact hbare
  · have hne : guard.parts ≠ [] := by
      rintro hnil
      simp [hnil] at hk
    rw [List.map_set]
    exact (separated_of_ofText h hne).set (by rw [List.getElem?_map, hk]; rfl) hwhole hdepth

/-! ### Parts that are relations -/

/-- The symbols of comparisons separate nothing and are no parentheses. -/
theorem not_mem_symbol (op : Comparison) :
    op.symbol.toList ≠ [] ∧ '&' ∉ op.symbol.toList ∧ '(' ∉ op.symbol.toList ∧ ')' ∉ op.symbol.toList := by
  cases op <;> decide

/-- A conjunction is read back with another comparison in a part. -/
theorem ofText_withOp (h : ofText text = .ok guard) {k : ℕ} {part : String} {r : Relation}
    (hk : guard.parts[k]? = some part) (hr : Relation.ofText part = .ok r) (op : Comparison) :
    ofText (Conjunction.mk (guard.parts.set k (r.withOp op).render)).render =
      .ok ⟨guard.parts.set k (r.withOp op).render⟩ := by
  have htext : ∀ op, (r.withOp op).render.toList =
      r.left.toList ++ op.symbol.toList ++ r.right.toList := by
    simp [Relation.render, Relation.withOp]
  have hpart : part.toList = r.left.toList ++ r.op.symbol.toList ++ r.right.toList := by
    rw [← Relation.render_of_ofText hr]
    exact htext r.op
  have hdepth : ∀ op : Comparison, ∀ depth, op.symbol.toList.foldl Text.depthAfter depth = depth :=
    fun op => Text.foldl_depthAfter_of_not_mem (not_mem_symbol op).2.2.1 (not_mem_symbol op).2.2.2
  obtain ⟨hleft, hright⟩ := Relation.isSide_of_ofText hr
  refine ofText_set h hk ?_ ?_ ?_
  · have hbare := bare_of_ofText h part (List.mem_of_getElem? hk)
    rw [hpart] at hbare
    rw [htext]
    exact hbare.replace hleft.ne_nil hright.ne_nil _
  · intro hwhole
    rw [hpart] at hwhole
    obtain ⟨hfront, hback⟩ := hwhole.append
    rw [List.foldl_append, hdepth] at hback
    rw [htext]
    refine hfront.append.1.between (by rwa [hdepth]) (not_mem_symbol op).1 fun c hc hmem => ?_
    obtain rfl : c = '&' := by simpa using hmem
    exact (not_mem_symbol op).2.1 hc
  · rw [htext, hpart]
    simp only [List.foldl_append, hdepth]

/-- The text that is written for a conjunction differs from the one that was read in white space only,
and is read as the same parts. So is, with this part changed, the text with another comparison in a part
that is a relation. -/
theorem ofText_rewritten (h : ofText text = .ok guard) :
    ofText guard.render = .ok guard ∧
      Text.squeeze guard.render.toList = Text.squeeze text.toList ∧
      ∀ k part r, guard.parts[k]? = some part → Relation.ofText part = .ok r → ∀ op,
        ∃ changed, guard.withPart? k (r.withOp op).render = some changed ∧
          changed.parts = guard.parts.set k (r.withOp op).render ∧
          ofText changed.render = .ok changed := by
  refine ⟨?_, ?_, fun k part r hk hr op => ?_⟩
  · by_cases hnil : guard.parts = []
    · obtain rfl : guard = ⟨[]⟩ := by rw [← hnil]
      rfl
    · exact ofText_render (bare_of_ofText h) (separated_of_ofText h hnil)
  · rw [render, String.toList_intercalate]
    rcases parts_of_ofText h with ⟨hblank, hnil⟩ | hparts
    · rw [hnil, Text.squeeze_of_allBlank hblank]
      rfl
    · have hmark : Text.squeeze [' ', '&', '&', ' '] = Text.squeeze ['&', '&'] := rfl
      have hjoin := Text.squeeze_intercalate hmark (Text.splitTopLevel ['&', '&'] text.toList)
      rw [Text.intercalate_splitTopLevel] at hjoin
      simpa [hparts, Function.comp_def] using hjoin
  · have hlt : k < guard.parts.length := (List.getElem?_eq_some_iff.mp hk).1
    exact ⟨_, if_pos hlt, rfl, ofText_withOp h hk hr op⟩

/-- A single `&` belongs to a part, and is still apart from the mark when the text is written. -/
theorem ofText_rewritten_ampersand :
    let guard : Conjunction := ⟨["a", "& b<=n"]⟩
    let r : Relation := ⟨"& b", .le, "n"⟩
    ofText " a&&& b<=n" = .ok guard ∧ ofText guard.render = .ok guard ∧
      Text.squeeze guard.render.toList = Text.squeeze " a&&& b<=n".toList ∧
      guard.parts[1]? = some "& b<=n" ∧ Relation.ofText "& b<=n" = .ok r ∧
      ∃ changed, guard.withPart? 1 (r.withOp .gt).render = some changed ∧
        changed.parts = guard.parts.set 1 (r.withOp .gt).render ∧
        ofText changed.render = .ok changed := by
  intro guard r
  have hread : ofText " a&&& b<=n" = .ok guard := by
    have hpieces : Text.splitTopLevel ['&', '&'] " a&&& b<=n".toList = [" a".toList, "& b<=n".toList] := by
      decide +kernel
    simp only [ofText, hpieces]
    rfl
  obtain ⟨hsame, hsqueeze, hchanged⟩ := ofText_rewritten hread
  exact ⟨hread, hsame, hsqueeze, rfl, rfl, hchanged 1 _ r rfl rfl .gt⟩

end TimedMutation.Conjunction
