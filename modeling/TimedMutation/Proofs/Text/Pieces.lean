import TimedMutation.Proofs.Text.Blank
import TimedMutation.Text.TopLevel

/-! Texts that are split at a mark, trimmed piece by piece, and joined again with a mark that may
have more white space in it. The texts agree in all other characters, which are therefore counted,
and a piece that was replaced can be found again. -/

namespace TimedMutation.Text

variable {mark mark' : List Char} {c : Char} {texts : List String} {old new : String} {k : ℕ}

/-- What follows the mark where it separates pieces. -/
def afterMark? (mark : List Char) (depth : Int) (cs : List Char) : Option (List Char) :=
  if depth = 0 ∧ mark ≠ [] then afterStart? mark cs else none

theorem eq_of_afterMark? {depth : Int} {cs after : List Char}
    (h : afterMark? mark depth cs = some after) : cs = mark ++ after := by
  unfold afterMark? at h
  split at h
  · exact afterStart?_eq_some.mp h
  · simp at h

theorem piecesFrom_mark {depth : Int} {rest after : List Char}
    (h : afterMark? mark depth (c :: rest) = some after) :
    piecesFrom mark depth (c :: rest) = [] :: piecesFrom mark depth after := by
  unfold afterMark? at h
  rw [piecesFrom]
  split
  · rename_i after' h'
    rw [h] at h'
    cases h'
    rfl
  · rename_i h'
    rw [h] at h'
    simp at h'

theorem piecesFrom_other {depth : Int} {rest piece : List Char} {pieces : List (List Char)}
    (h : afterMark? mark depth (c :: rest) = none)
    (hpieces : piecesFrom mark (depthAfter depth c) rest = piece :: pieces) :
    piecesFrom mark depth (c :: rest) = (c :: piece) :: pieces := by
  unfold afterMark? at h
  rw [piecesFrom]
  split
  · rename_i h'
    rw [h] at h'
    simp at h'
  · rw [hpieces]

/-- Splitting takes away the marks and nothing else. -/
theorem intercalate_piecesFrom (mark : List Char) (depth : Int) (cs : List Char) :
    mark.intercalate (piecesFrom mark depth cs) = cs := by
  induction depth, cs using piecesFrom.induct mark with
  | case1 depth => simp [piecesFrom]
  | case2 depth c rest after hfound ih =>
    have hmark : afterMark? mark depth (c :: rest) = some after := by simpa [afterMark?] using hfound
    obtain ⟨piece, pieces, hpieces⟩ :=
      List.exists_cons_of_ne_nil (piecesFrom_ne_nil mark depth after)
    rw [hpieces] at ih
    rw [piecesFrom_mark hmark, hpieces, List.intercalate_cons_cons, ih, List.nil_append,
      eq_of_afterMark? hmark]
  | case3 depth c rest hfound hpieces ih => exact absurd hpieces (piecesFrom_ne_nil _ _ _)
  | case4 depth c rest hfound piece pieces hpieces ih =>
    have hmark : afterMark? mark depth (c :: rest) = none := by simpa [afterMark?] using hfound
    rw [hpieces] at ih
    rw [piecesFrom_other hmark hpieces]
    cases pieces with
    | nil =>
      rw [List.intercalate_singleton] at ih ⊢
      rw [ih]
    | cons next pieces =>
      rw [List.intercalate_cons_cons] at ih ⊢
      rw [← ih]
      rfl

theorem intercalate_splitTopLevel (mark cs : List Char) :
    mark.intercalate (splitTopLevel mark cs) = cs :=
  intercalate_piecesFrom mark 0 cs

/-- What no mark starts in belongs to the first piece. -/
theorem piecesFrom_append {m : Char} {ms w cs piece : List Char} {pieces : List (List Char)}
    (hw : m ∉ w) {depth : Int}
    (hpieces : piecesFrom (m :: ms) (w.foldl depthAfter depth) cs = piece :: pieces) :
    piecesFrom (m :: ms) depth (w ++ cs) = (w ++ piece) :: pieces := by
  induction w generalizing depth with
  | nil => exact hpieces
  | cons x w ih =>
    have hx : m ≠ x := fun hx => hw (by simp [hx])
    have hnone : afterMark? (m :: ms) depth (x :: (w ++ cs)) = none := by
      simp [afterMark?, afterStart?, hx]
    exact piecesFrom_other hnone (ih (fun hmem => hw (by simp [hmem])) hpieces)

/-- The first piece starts as the text does. -/
theorem head?_piece {depth : Int} {cs piece : List Char} {pieces : List (List Char)}
    (h : piecesFrom mark depth cs = piece :: pieces) : ∀ c ∈ piece.head?, c ∈ cs.head? := by
  intro c hc
  have hjoin := intercalate_piecesFrom mark depth cs
  obtain ⟨rest, rfl⟩ := List.head?_eq_some_iff.mp hc
  rw [h] at hjoin
  cases pieces with
  | nil => simp [← hjoin]
  | cons next pieces => simp [← hjoin, List.intercalate_cons_cons]

/-- A text is cut at the first mark in it. -/
theorem cutAt?_append {m : Char} {before : List Char} (h : m ∉ before) (after : List Char) :
    cutAt? [m] (before ++ m :: after) = some (before, after) := by
  induction before with
  | nil => simp [cutAt?, afterStart?]
  | cons x before ih =>
    have hx : m ≠ x := fun hx => h (by simp [hx])
    have hrest : m ∉ before := fun hmem => h (by simp [hmem])
    simp [cutAt?, afterStart?, hx, ih hrest]

/-! ### Counting characters -/

/-- The number of times that a character stands in some texts. -/
def occurrences (c : Char) (texts : List String) : ℕ := (texts.flatMap String.toList).count c

theorem occurrences_cons (c : Char) (t : String) (texts : List String) :
    occurrences c (t :: texts) = t.toList.count c + occurrences c texts := by
  simp [occurrences]

theorem occurrences_append (c : Char) (texts texts' : List String) :
    occurrences c (texts ++ texts') = occurrences c texts + occurrences c texts' := by
  simp [occurrences]

theorem occurrences_set (c : Char) (h : texts[k]? = some old) (new : String) :
    occurrences c (texts.set k new) + old.toList.count c =
      occurrences c texts + new.toList.count c := by
  induction texts generalizing k with
  | nil => simp at h
  | cons t texts ih =>
    cases k with
    | zero =>
      cases h
      simp only [List.set_cons_zero, occurrences_cons]
      omega
    | succ k =>
      have hrest := ih h
      simp only [List.set_cons_succ, occurrences_cons]
      omega

theorem occurrences_eraseIdx (c : Char) (h : texts[k]? = some old) :
    occurrences c (texts.eraseIdx k) + old.toList.count c = occurrences c texts := by
  induction texts generalizing k with
  | nil => simp at h
  | cons t texts ih =>
    cases k with
    | zero =>
      cases h
      simp only [List.eraseIdx_cons_zero, occurrences_cons]
      omega
    | succ k =>
      have hrest := ih h
      simp only [List.eraseIdx_cons_succ, occurrences_cons]
      omega

theorem count_intercalate (hc : c ∉ mark) (pieces : List (List Char)) :
    (mark.intercalate pieces).count c = pieces.flatten.count c := by
  induction pieces with
  | nil => simp
  | cons piece pieces ih =>
    cases pieces with
    | nil => simp
    | cons next pieces =>
      rw [List.intercalate_cons_cons, List.count_append, List.count_append, ih,
        List.count_eq_zero_of_not_mem hc, Nat.add_zero, ← List.count_append]
      rfl

/-- A character that is not in the mark stands as often in the joined text as in the texts. -/
theorem count_join {mark : String} (hc : c ∉ mark.toList) (texts : List String) :
    (String.intercalate mark texts).toList.count c = occurrences c texts := by
  rw [String.toList_intercalate, count_intercalate hc, occurrences, List.flatMap]

/-- A character that is neither white space nor in the mark stands as often in a text as in its
trimmed pieces. -/
theorem count_pieces (hc : c ∉ mark) (hblank : isBlank c = false) (cs : List Char) :
    cs.count c =
      occurrences c ((splitTopLevel mark cs).map fun piece => String.ofList (trim piece)) := by
  conv_lhs => rw [← intercalate_splitTopLevel mark cs, count_intercalate hc]
  induction splitTopLevel mark cs with
  | nil => rfl
  | cons piece pieces ih =>
    rw [List.flatten_cons, List.count_append, List.map_cons, occurrences_cons, ih,
      String.toList_ofList, count_trim hblank]

/-! ### The place of a piece -/

theorem intercalate_middle {α : Type} (mark : List α) (left right : List (List α)) (piece : List α) :
    mark.intercalate (left ++ piece :: right) =
      left.flatMap (· ++ mark) ++ piece ++ right.flatMap (mark ++ ·) := by
  induction left with
  | nil =>
    induction right generalizing piece with
    | nil => simp
    | cons next right ih =>
      have hrest := ih next
      simp only [List.nil_append, List.flatMap_nil] at hrest ⊢
      rw [List.intercalate_cons_cons, hrest]
      simp
  | cons first left ih =>
    rw [List.cons_append, List.intercalate_cons_of_ne_nil (by simp), ih]
    simp

/-- A piece may be replaced between what is before and after it. -/
theorem exists_intercalate_set {α : Type} (mark : List α) {pieces : List (List α)} {k : ℕ}
    {old : List α} (hk : pieces[k]? = some old) :
    ∃ before after, mark.intercalate pieces = before ++ old ++ after ∧
      ∀ new, mark.intercalate (pieces.set k new) = before ++ new ++ after := by
  obtain ⟨hlt, hget⟩ := List.getElem?_eq_some_iff.mp hk
  have hset : ∀ new, pieces.set k new = pieces.take k ++ new :: pieces.drop (k + 1) := by
    intro new
    rw [List.set_eq_take_append_cons_drop, if_pos hlt]
  have hpieces : pieces = pieces.take k ++ old :: pieces.drop (k + 1) := by
    rw [← hget, ← List.drop_eq_getElem_cons hlt, List.take_append_drop]
  refine ⟨(pieces.take k).flatMap (· ++ mark), (pieces.drop (k + 1)).flatMap (mark ++ ·), ?_, ?_⟩
  · conv_lhs => rw [hpieces]
    exact intercalate_middle mark _ _ old
  · intro new
    rw [hset, intercalate_middle]

/-- Texts that are joined again after trimming differ from before in white space only, if their marks
do. -/
theorem squeeze_intercalate (hmark : squeeze mark' = squeeze mark) (pieces : List (List Char)) :
    squeeze (mark'.intercalate (pieces.map trim)) = squeeze (mark.intercalate pieces) := by
  induction pieces with
  | nil => rfl
  | cons piece pieces ih =>
    cases pieces with
    | nil => simp [squeeze_trim]
    | cons next pieces =>
      rw [List.map_cons, List.map_cons] at *
      rw [List.intercalate_cons_cons, List.intercalate_cons_cons, squeeze_append, squeeze_append,
        squeeze_append, squeeze_append, ih, hmark, squeeze_trim]

theorem squeeze_left (hmark : squeeze mark' = squeeze mark) (pieces : List (List Char)) :
    squeeze ((pieces.map trim).flatMap (· ++ mark')) = squeeze (pieces.flatMap (· ++ mark)) := by
  induction pieces with
  | nil => rfl
  | cons piece pieces ih =>
    rw [List.map_cons, List.flatMap_cons, List.flatMap_cons, squeeze_append, squeeze_append,
      squeeze_append, squeeze_append, ih, hmark, squeeze_trim]

theorem squeeze_right (hmark : squeeze mark' = squeeze mark) (pieces : List (List Char)) :
    squeeze ((pieces.map trim).flatMap (mark' ++ ·)) = squeeze (pieces.flatMap (mark ++ ·)) := by
  induction pieces with
  | nil => rfl
  | cons piece pieces ih =>
    rw [List.map_cons, List.flatMap_cons, List.flatMap_cons, squeeze_append, squeeze_append,
      squeeze_append, squeeze_append, ih, hmark, squeeze_trim]

/-- The trimmed pieces of a text are joined again with one of them replaced. If that gives the text
again, up to white space around it, then the new piece is the old one. -/
theorem piece_of_join_eq {before after : List Char} {pieces : List (List Char)} {piece : List Char}
    (hmark : squeeze mark' = squeeze mark) (hbefore : allBlank before = true)
    (hafter : allBlank after = true) (hk : pieces[k]? = some piece) (hold : Bare (trim piece))
    {new : List Char} (hnew : Bare new)
    (h : mark'.intercalate ((pieces.map trim).set k new) =
      before ++ mark.intercalate pieces ++ after) : new = trim piece := by
  obtain ⟨hlt, hget⟩ := List.getElem?_eq_some_iff.mp hk
  have hpieces : pieces = pieces.take k ++ piece :: pieces.drop (k + 1) := by
    rw [← hget, ← List.drop_eq_getElem_cons hlt, List.take_append_drop]
  have hset : (pieces.map trim).set k new =
      (pieces.take k).map trim ++ new :: (pieces.drop (k + 1)).map trim := by
    rw [List.set_eq_take_append_cons_drop, if_pos (by simpa using hlt), List.map_take, List.map_drop]
  obtain ⟨left, right, hleft, hright, htrim⟩ := exists_trim piece
  rw [hset, intercalate_middle] at h
  conv_rhs at h => rw [hpieces, intercalate_middle, htrim]
  have heq : ((pieces.take k).map trim).flatMap (· ++ mark') ++ new ++
        ((pieces.drop (k + 1)).map trim).flatMap (mark' ++ ·) =
      (before ++ (pieces.take k).flatMap (· ++ mark) ++ left) ++ trim piece ++
        (right ++ (pieces.drop (k + 1)).flatMap (mark ++ ·) ++ after) := by
    rw [h]
    simp
  refine middle_inj hnew hold ?_ ?_ heq
  · rw [squeeze_left hmark, squeeze_append, squeeze_append, squeeze_of_allBlank hbefore,
      squeeze_of_allBlank hleft, List.nil_append, List.append_nil]
  · rw [squeeze_right hmark, squeeze_append, squeeze_append, squeeze_of_allBlank hafter,
      squeeze_of_allBlank hright, List.nil_append, List.append_nil]

end TimedMutation.Text
