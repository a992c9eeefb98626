import TimedMutation.Proofs.Text.Joined

/-! Where a text is cut: at every mark that is found outside parentheses from the left, and nowhere
else. The depth of parentheses at a piece is that of all the text before it, the marks included, which
is why a mark must not change it. -/

namespace TimedMutation.Text

variable {mark cs piece : List Char} {left right : List (List Char)} {depth : Int} {c : Char}

theorem not_prefix_of_afterMark? (hne : mark ≠ []) (h : afterMark? mark 0 cs = none) :
    ¬ mark <+: cs := by
  rintro ⟨after, rfl⟩
  rw [afterMark?, if_pos ⟨rfl, hne⟩, afterStart?_eq_some.mpr rfl] at h
  cases h

/-- A piece between the pieces before and after it, in a text that starts at a depth of parentheses.
Unless it is the last, it ends outside parentheses; and no mark starts in it outside parentheses, not
even one that goes on behind it. -/
structure Placed (mark : List Char) (depth : Int) (left : List (List Char)) (piece : List Char)
    (right : List (List Char)) : Prop where
  ends : right ≠ [] → (left.flatMap (· ++ mark) ++ piece).foldl depthAfter depth = 0
  unmarked : ∀ before after, piece = before ++ after → after ≠ [] →
    (left.flatMap (· ++ mark) ++ before).foldl depthAfter depth = 0 →
    ¬ mark <+: after ++ right.flatMap (mark ++ ·)

namespace Placed

/-- An empty piece holds no mark. -/
theorem nil (hdepth : right ≠ [] → depth = 0) : Placed mark depth [] [] right where
  ends := hdepth
  unmarked before after hpiece hafter := by
    simp [(List.append_eq_nil_iff.mp hpiece.symm).2] at hafter

/-- A mark that does not change the depth may stand before the text. -/
theorem behind_mark (h : Placed mark 0 left piece right) (hmark : mark.foldl depthAfter 0 = 0) :
    Placed mark 0 ([] :: left) piece right where
  ends hright := by simpa [hmark] using h.ends hright
  unmarked before after hpiece hafter hdepth :=
    h.unmarked before after hpiece hafter (by simpa [hmark] using hdepth)

/-- A character may stand before the text if no mark starts with it. -/
theorem cons (h : Placed mark (depthAfter depth c) [] piece right)
    (hmark : depth = 0 → ¬ mark <+: c :: (piece ++ right.flatMap (mark ++ ·))) :
    Placed mark depth [] (c :: piece) right where
  ends hright := h.ends hright
  unmarked before after hpiece hafter hdepth := by
    cases before with
    | nil =>
      obtain rfl : c :: piece = after := hpiece
      exact hmark hdepth
    | cons x before =>
      obtain ⟨rfl, hrest⟩ := List.cons.inj hpiece
      exact h.unmarked before after hrest hafter hdepth

/-- For a later piece it does not matter what stands before the text. -/
theorem cons_before {first : List Char} (h : Placed mark (depthAfter depth c) (first :: left) piece right) :
    Placed mark depth ((c :: first) :: left) piece right where
  ends hright := h.ends hright
  unmarked before after hpiece hafter hdepth := h.unmarked before after hpiece hafter hdepth

end Placed

theorem placed_piecesFrom (hne : mark ≠ []) (hmark : mark.foldl depthAfter 0 = 0)
    (h : piecesFrom mark depth cs = left ++ piece :: right) : Placed mark depth left piece right := by
  induction depth, cs using piecesFrom.induct mark generalizing left piece right with
  | case1 depth =>
    rw [piecesFrom] at h
    cases left with
    | nil =>
      cases h
      exact .nil fun hright => absurd rfl hright
    | cons first left => simp at h
  | case2 depth c rest after hfound ih =>
    have hhere : afterMark? mark depth (c :: rest) = some after := by simpa [afterMark?] using hfound
    obtain rfl : depth = 0 := by
      by_contra hinside
      simp [hinside] at hfound
    rw [piecesFrom_mark hhere] at h
    cases left with
    | nil =>
      cases h
      exact .nil fun _ => rfl
    | cons first left =>
      obtain ⟨rfl, hrest⟩ := List.cons.inj h
      exact (ih hrest).behind_mark hmark
  | case3 depth c rest hfound hpieces ih => exact absurd hpieces (piecesFrom_ne_nil _ _ _)
  | case4 depth c rest hfound first pieces hpieces ih =>
    have hhere : afterMark? mark depth (c :: rest) = none := by simpa [afterMark?] using hfound
    rw [piecesFrom_other hhere hpieces] at h
    cases left with
    | nil =>
      cases h
      have hfirst : Placed mark (depthAfter depth c) [] first pieces := ih hpieces
      refine hfirst.cons ?_
      rintro rfl
      have hrest := intercalate_piecesFrom mark (depthAfter 0 c) rest
      rw [hpieces, ← List.nil_append (first :: pieces), intercalate_middle] at hrest
      rw [← hrest] at hhere
      exact not_prefix_of_afterMark? hne hhere
    | cons first' left =>
      obtain ⟨rfl, hlater⟩ := List.cons.inj h
      have hplaced : Placed mark (depthAfter depth c) (first :: left) piece right :=
        ih (hpieces.trans (congrArg (first :: ·) hlater))
      exact hplaced.cons_before

/-- A character changes the depth by one at most. -/
theorem natAbs_foldl_depthAfter_sub_le (cs : List Char) (depth : Int) :
    (cs.foldl depthAfter depth - depth).natAbs ≤ cs.length := by
  induction cs generalizing depth with
  | nil => simp
  | cons c cs ih =>
    have hrest := ih (depthAfter depth c)
    have hstep : (depthAfter depth c - depth).natAbs ≤ 1 := by
      unfold depthAfter
      split
      · omega
      · split <;> omega
    rw [List.foldl_cons, List.length_cons]
    omega

/-- The pieces of a text joined with the mark are the text again, every cut is outside parentheses, and
no mark starts outside parentheses within a piece. The depth is never further from zero than the text
before it is long, so that 32 bits with a sign hold it in a text of fewer than 2 to the power of 31
characters. -/
theorem splitTopLevel_cuts (text mark : String) (h : mark = "&&" ∨ mark = ",") :
    String.intercalate mark ((splitTopLevel mark.toList text.toList).map String.ofList) = text ∧
    (∀ left piece right, splitTopLevel mark.toList text.toList = left ++ piece :: right →
      text.toList = left.flatMap (· ++ mark.toList) ++ piece ++ right.flatMap (mark.toList ++ ·) ∧
      Placed mark.toList 0 left piece right) ∧
    ∀ before, before <+: text.toList → (before.foldl depthAfter 0).natAbs ≤ before.length := by
  have hmark : mark.toList ≠ [] ∧ mark.toList.foldl depthAfter 0 = 0 := by
    rcases h with rfl | rfl <;> decide
  have hjoin := intercalate_splitTopLevel mark.toList text.toList
  refine ⟨?_, ?_, ?_⟩
  · rw [← String.toList_inj, String.toList_intercalate, List.map_map]
    simpa [Function.comp_def] using hjoin
  · intro left piece right hpieces
    rw [hpieces, intercalate_middle] at hjoin
    exact ⟨hjoin.symm, placed_piecesFrom hmark.1 hmark.2 hpieces⟩
  · intro before _
    simpa using natAbs_foldl_depthAfter_sub_le before 0

/-- The first mark is in parentheses, and of three characters the first two are the mark. -/
theorem splitTopLevel_cuts_nested :
    let text := "(a && b) && c&&&d"
    let pieces := ["(a && b) ".toList, " c".toList, "&d".toList]
    ("&&" = "&&" ∨ "&&" = ",") ∧ splitTopLevel "&&".toList text.toList = pieces ∧
      String.intercalate "&&" (pieces.map String.ofList) = text ∧
      Placed "&&".toList 0 ["(a && b) ".toList] " c".toList ["&d".toList] := by
  intro text pieces
  have hpieces : splitTopLevel "&&".toList text.toList = pieces := by decide +kernel
  obtain ⟨hjoin, hplaced, -⟩ := splitTopLevel_cuts text "&&" (.inl rfl)
  rw [hpieces] at hjoin
  exact ⟨.inl rfl, hpieces, hjoin, (hplaced ["(a && b) ".toList] _ _ hpieces).2⟩

end TimedMutation.Text
