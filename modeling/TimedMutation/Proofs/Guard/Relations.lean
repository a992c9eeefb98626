import TimedMutation.Proofs.Guard.Tokens

/-! Simple relations are read from exactly the texts that consist of two sides and a comparison. -/

namespace TimedMutation.Relation

/-- A side of a relation is not blank, and no character of a comparison stands in it. -/
structure IsSide (side : String) : Prop where
  unmarked : ∀ c ∈ side.toList, isRelationChar c = false
  shown : ∃ c ∈ side.toList, Text.isBlank c = false

variable {text left right : String} {cs : List Char} {r : Relation} {op : Comparison}

theorem IsSide.ne_nil (h : IsSide left) : left.toList ≠ [] := by
  obtain ⟨c, hc, -⟩ := h.shown
  exact List.ne_nil_of_mem hc

/-- A comparison is found where no character of a comparison follows it. -/
theorem operatorAt?_symbol (hcs : ∀ c ∈ cs.head?, isRelationChar c = false) :
    operatorAt? (op.symbol.toList ++ cs) = some (op, cs) := by
  have hlonger : ∀ after, cs = '=' :: after → False := by
    rintro after rfl
    cases hcs '=' rfl
  cases op with
  | lt =>
    change operatorAt? ('<' :: cs) = _
    rw [operatorAt?]
    exact hlonger
  | gt =>
    change operatorAt? ('>' :: cs) = _
    rw [operatorAt?]
    exact hlonger
  | le | ge | eq | ne => rfl

/-- Two sides with a comparison between them are read as these. -/
theorem ofText_of_sides (hleft : IsSide left) (hright : IsSide right) (op : Comparison) :
    ofText (left ++ op.symbol ++ right) = .ok ⟨left, op, right⟩ := by
  have htext : (left ++ op.symbol ++ right).toList =
      left.toList ++ (op.symbol.toList ++ right.toList) := by
    simp
  have hrun : ∀ c ∈ left.toList, (!isRelationChar c) = true := fun c hc => by
    simp [hleft.unmarked c hc]
  have hmark : ∀ c ∈ (op.symbol.toList ++ right.toList).head?, (!isRelationChar c) = false :=
    fun c hc => by simp [Token.isRelationChar_of_head? op _ c hc]
  obtain ⟨htake, hdrop⟩ := Token.span_run hrun hmark
  have hop : operatorAt? (op.symbol.toList ++ right.toList) = some (op, right.toList) :=
    operatorAt?_symbol fun c hc => hright.unmarked c (List.mem_of_mem_head? hc)
  have hsecond : right.toList.any isRelationChar = false := by simpa using hright.unmarked
  simp only [ofText, htext, htake, hdrop]
  generalize hrest : op.symbol.toList ++ right.toList = rest at hop
  cases rest with
  | nil => cases hop
  | cons c rest =>
    simp [hop, Text.allBlank_eq_false.mpr hleft.shown, Text.allBlank_eq_false.mpr hright.shown,
      hsecond]

/-- What is read as a relation has two sides. -/
theorem isSide_of_ofText (h : ofText text = .ok r) : IsSide r.left ∧ IsSide r.right := by
  obtain ⟨hleft, hright⟩ := sides_of_ofText h
  suffices hshown : Text.allBlank r.left.toList = false ∧ Text.allBlank r.right.toList = false from
    ⟨⟨hleft, Text.allBlank_eq_false.mp hshown.1⟩, ⟨hright, Text.allBlank_eq_false.mp hshown.2⟩⟩
  simp only [ofText] at h
  split at h
  · cases h
  · split at h
    · cases h
    · split at h
      · cases h
      · rename_i hblank
        split at h
        · cases h
        · cases h
          simpa using hblank

/-- The comparison of a relation may be exchanged in its text. -/
theorem ofText_withOp (h : ofText text = .ok r) (op : Comparison) :
    ofText (r.withOp op).render = .ok (r.withOp op) :=
  ofText_of_sides (isSide_of_ofText h).1 (isSide_of_ofText h).2 op

/-- A text is read as a relation exactly if it is a side, a comparison and a side. It is so in one way at
most, and the relation has these sides and this comparison. Its text is the one that was read, and it is
read again with any other comparison in the place of its own. -/
theorem ofText_accepts_sides (text : String) :
    (∀ left op right, ofText text = .ok ⟨left, op, right⟩ ↔
        text = left ++ Comparison.symbol op ++ right ∧ IsSide left ∧ IsSide right) ∧
      (∀ left op right left' op' right',
        text = left ++ Comparison.symbol op ++ right → IsSide left → IsSide right →
        text = left' ++ Comparison.symbol op' ++ right' → IsSide left' → IsSide right' →
        left = left' ∧ op = op' ∧ right = right') ∧
      ∀ r, ofText text = .ok r →
        r.render = text ∧ ∀ op, ofText (r.withOp op).render = .ok ⟨r.left, op, r.right⟩ := by
  refine ⟨fun left op right => ⟨fun h => ?_, ?_⟩, ?_, fun r h => ⟨render_of_ofText h, ofText_withOp h⟩⟩
  · exact ⟨(render_of_ofText h).symm, isSide_of_ofText h⟩
  · rintro ⟨rfl, hleft, hright⟩
    exact ofText_of_sides hleft hright op
  · rintro left op right left' op' right' rfl hleft hright hsame hleft' hright'
    have hread := ofText_of_sides hleft hright op
    rw [hsame, ofText_of_sides hleft' hright' op'] at hread
    cases hread
    exact ⟨rfl, rfl, rfl⟩

/-- White space stays with the sides, and the longer of two comparisons is taken. -/
theorem ofText_of_spaced_bound :
    let r : Relation := ⟨" t", .le, "n "⟩
    ofText " t<=n " = .ok r ∧
      (" t<=n " = r.left ++ r.op.symbol ++ r.right ∧ IsSide r.left ∧ IsSide r.right) ∧
      (r.left = " t" ∧ r.op = .le ∧ r.right = "n ") ∧
      r.render = " t<=n " ∧ ofText (r.withOp .gt).render = .ok ⟨" t", .gt, "n "⟩ := by
  intro r
  obtain ⟨hiff, hunique, hrender⟩ := ofText_accepts_sides " t<=n "
  have hread : ofText " t<=n " = .ok r := rfl
  obtain ⟨htext, hleft, hright⟩ := (hiff r.left r.op r.right).mp hread
  obtain ⟨hsame, hswap⟩ := hrender r hread
  exact ⟨hread, ⟨htext, hleft, hright⟩,
    hunique _ _ _ _ _ _ htext hleft hright htext hleft hright, hsame, hswap .gt⟩

end TimedMutation.Relation
