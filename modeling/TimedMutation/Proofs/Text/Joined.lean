import TimedMutation.Proofs.Text.Cut

/-! Texts that are joined with a mark and split at it again. A mark separates only outside parentheses,
so what counts of a piece is that nothing in it separates, and at which depth it ends. -/

namespace TimedMutation.Text

variable {mark as bs cs w : List Char} {ws : List (List Char)} {depth : Int} {c : Char}

/-! ### Texts in which nothing separates -/

/-- No mark separates the text, which starts at a depth of parentheses. -/
def Whole (mark : List Char) (depth : Int) (cs : List Char) : Prop := piecesFrom mark depth cs = [cs]

theorem whole_nil (mark : List Char) (depth : Int) : Whole mark depth [] := by
  rw [Whole, piecesFrom]

theorem whole_cons :
    Whole mark depth (c :: cs) ↔
      afterMark? mark depth (c :: cs) = none ∧ Whole mark (depthAfter depth c) cs := by
  unfold Whole
  constructor
  · intro h
    cases hmark : afterMark? mark depth (c :: cs) with
    | some after =>
      rw [piecesFrom_mark hmark] at h
      cases h
    | none =>
      obtain ⟨piece, pieces, hpieces⟩ :=
        List.exists_cons_of_ne_nil (piecesFrom_ne_nil mark (depthAfter depth c) cs)
      rw [piecesFrom_other hmark hpieces] at h
      cases h
      exact ⟨rfl, hpieces⟩
  · rintro ⟨hmark, hrest⟩
    exact piecesFrom_other hmark hrest

/-- A mark that does not start a text does not start the front of it. -/
theorem afterMark?_left (h : afterMark? mark depth (as ++ bs) = none) :
    afterMark? mark depth as = none := by
  rw [Option.eq_none_iff_forall_ne_some]
  intro after hafter
  have htext := eq_of_afterMark? hafter
  simp only [afterMark?] at h hafter
  split at hafter
  · rename_i houtside
    have hwhole : afterStart? mark (as ++ bs) = some (after ++ bs) :=
      afterStart?_eq_some.mpr (by rw [htext, List.append_assoc])
    rw [if_pos houtside, hwhole] at h
    cases h
  · cases hafter

theorem Whole.append (h : Whole mark depth (as ++ bs)) :
    Whole mark depth as ∧ Whole mark (as.foldl depthAfter depth) bs := by
  induction as generalizing depth with
  | nil => exact ⟨whole_nil mark depth, h⟩
  | cons a as ih =>
    obtain ⟨hmark, hrest⟩ := whole_cons.mp h
    obtain ⟨has, hbs⟩ := ih hrest
    exact ⟨whole_cons.mpr ⟨afterMark?_left hmark, has⟩, hbs⟩

theorem whole_of_not_mem {m : Char} {ms : List Char} (h : m ∉ w) (depth : Int) :
    Whole (m :: ms) depth w := by
  have hpieces := piecesFrom_append h (whole_nil (m :: ms) (w.foldl depthAfter depth))
  rwa [List.append_nil] at hpieces

/-- A text in which nothing separates belongs to the first piece of a longer one, unless a mark starts in
it and goes on behind it. -/
theorem Whole.piecesFrom_append {piece : List Char} {pieces : List (List Char)}
    (h : Whole mark depth w) (hends : ∀ c ∈ cs.head?, c ∉ mark.tail)
    (hpieces : piecesFrom mark (w.foldl depthAfter depth) cs = piece :: pieces) :
    piecesFrom mark depth (w ++ cs) = (w ++ piece) :: pieces := by
  induction w generalizing depth with
  | nil => exact hpieces
  | cons x w ih =>
    obtain ⟨hmark, hrest⟩ := whole_cons.mp h
    refine piecesFrom_other (Option.eq_none_iff_forall_ne_some.mpr ?_) (ih hrest hpieces)
    intro after hafter
    have heq : (x :: w) ++ cs = mark ++ after := eq_of_afterMark? hafter
    have houtside : depth = 0 ∧ mark ≠ [] := by
      unfold afterMark? at hafter
      split at hafter
      · assumption
      · cases hafter
    rw [afterMark?, if_pos houtside] at hmark
    rcases List.append_eq_append_iff.mp heq with ⟨tail, htext, hcs⟩ | ⟨tail, htext, -⟩
    · cases tail with
      | nil =>
        have hstart : afterStart? mark (x :: w) = some [] :=
          afterStart?_eq_some.mpr (by simpa using htext.symm)
        rw [hstart] at hmark
        cases hmark
      | cons d tail =>
        refine hends d (by rw [hcs]; rfl) ?_
        rw [htext]
        simp
    · rw [afterStart?_eq_some.mpr htext] at hmark
      cases hmark

/-- Nothing separates a text either that has something without characters of the mark in the middle. -/
theorem Whole.between {m : Char} {ms mid : List Char} (has : Whole (m :: ms) depth as)
    (hbs : Whole (m :: ms) (mid.foldl depthAfter (as.foldl depthAfter depth)) bs) (hne : mid ≠ [])
    (hmid : ∀ c ∈ mid, c ∉ m :: ms) : Whole (m :: ms) depth (as ++ mid ++ bs) := by
  obtain ⟨c, mid, rfl⟩ := List.exists_cons_of_ne_nil hne
  have hrest := Text.piecesFrom_append (fun hm => hmid m hm List.mem_cons_self) hbs
  have hends : ∀ d ∈ ((c :: mid) ++ bs).head?, d ∉ (m :: ms).tail := by
    intro d hd
    cases hd
    exact fun hmem => hmid c List.mem_cons_self (List.mem_cons_of_mem m hmem)
  rw [List.append_assoc]
  exact has.piecesFrom_append hends hrest

/-- Only parentheses change the depth. -/
theorem foldl_depthAfter_of_not_mem (hopen : '(' ∉ cs) (hclose : ')' ∉ cs) (depth : Int) :
    cs.foldl depthAfter depth = depth := by
  induction cs with
  | nil => rfl
  | cons c cs ih =>
    simp only [List.mem_cons, not_or] at hopen hclose
    rw [List.foldl_cons, depthAfter, if_neg (Ne.symm hopen.1), if_neg (Ne.symm hclose.1)]
    exact ih hopen.2 hclose.2

theorem not_mem_of_allBlank (h : allBlank cs = true) (hc : isBlank c = false) : c ∉ cs := by
  intro hmem
  simp only [allBlank, List.all_eq_true] at h
  simp [h c hmem] at hc

theorem foldl_depthAfter_of_allBlank (h : allBlank cs = true) (depth : Int) :
    cs.foldl depthAfter depth = depth :=
  foldl_depthAfter_of_not_mem (not_mem_of_allBlank h rfl) (not_mem_of_allBlank h rfl) depth

theorem foldl_depthAfter_trim (cs : List Char) (depth : Int) :
    (trim cs).foldl depthAfter depth = cs.foldl depthAfter depth := by
  obtain ⟨before, after, hbefore, hafter, htext⟩ := exists_trim cs
  conv_rhs => rw [htext]
  rw [List.foldl_append, List.foldl_append, foldl_depthAfter_of_allBlank hbefore,
    foldl_depthAfter_of_allBlank hafter]

theorem Whole.trim (h : Whole mark depth cs) : Whole mark depth (trim cs) := by
  obtain ⟨before, after, hbefore, -, htext⟩ := exists_trim cs
  rw [htext] at h
  have hmiddle := h.append.1.append.2
  rwa [foldl_depthAfter_of_allBlank hbefore] at hmiddle

/-! ### Pieces -/

/-- Texts that stand between marks: nothing separates any of them, and all but the last end outside
parentheses. -/
inductive Separated (mark : List Char) : Int → List (List Char) → Prop
  | last {depth : Int} {w : List Char} : Whole mark depth w → Separated mark depth [w]
  | cons {depth : Int} {w : List Char} {ws : List (List Char)} : Whole mark depth w →
      w.foldl depthAfter depth = 0 → Separated mark 0 ws → Separated mark depth (w :: ws)

theorem separated_piecesFrom (mark : List Char) (depth : Int) (cs : List Char) :
    Separated mark depth (piecesFrom mark depth cs) := by
  induction depth, cs using piecesFrom.induct mark with
  | case1 depth =>
    rw [piecesFrom]
    exact .last (whole_nil mark depth)
  | case2 depth c rest after hfound ih =>
    have hmark : afterMark? mark depth (c :: rest) = some after := by simpa [afterMark?] using hfound
    have hdepth : depth = 0 := by
      by_contra hinside
      simp [hinside] at hfound
    subst hdepth
    rw [piecesFrom_mark hmark]
    exact .cons (whole_nil mark 0) rfl ih
  | case3 depth c rest hfound hpieces ih => exact absurd hpieces (piecesFrom_ne_nil _ _ _)
  | case4 depth c rest hfound piece pieces hpieces ih =>
    have hmark : afterMark? mark depth (c :: rest) = none := by simpa [afterMark?] using hfound
    have hstart : ∃ more, rest = piece ++ more := by
      rw [← intercalate_piecesFrom mark (depthAfter depth c) rest, hpieces]
      cases pieces with
      | nil => exact ⟨[], by simp⟩
      | cons next pieces => exact ⟨_, by rw [List.intercalate_cons_cons, List.append_assoc]⟩
    obtain ⟨more, rfl⟩ := hstart
    have hfirst : ∀ {w}, w = piece → Whole mark (depthAfter depth c) w →
        Whole mark depth (c :: w) := by
      rintro w rfl hw
      have hfront : afterMark? mark depth ((c :: w) ++ more) = none := hmark
      exact whole_cons.mpr ⟨afterMark?_left hfront, hw⟩
    rw [piecesFrom_other hmark hpieces]
    rw [hpieces] at ih
    cases ih with
    | last hpiece => exact .last (hfirst rfl hpiece)
    | cons hpiece hends hrest => exact .cons (hfirst rfl hpiece) hends hrest

theorem separated_of_forall (hne : ws ≠ [])
    (h : ∀ w ∈ ws, Whole mark 0 w ∧ w.foldl depthAfter 0 = 0) : Separated mark 0 ws := by
  induction ws with
  | nil => exact absurd rfl hne
  | cons w ws ih =>
    obtain ⟨hw, hdepth⟩ := h w List.mem_cons_self
    cases ws with
    | nil => exact .last hw
    | cons next ws =>
      exact .cons hw hdepth (ih (by simp) fun w hw => h w (List.mem_cons_of_mem _ hw))

theorem separated_splitTopLevel (mark cs : List Char) : Separated mark 0 (splitTopLevel mark cs) :=
  separated_piecesFrom mark 0 cs

theorem Separated.ne_nil (h : Separated mark depth ws) : ws ≠ [] := by
  cases h <;> simp

theorem Separated.map_trim (h : Separated mark depth ws) : Separated mark depth (ws.map trim) := by
  induction h with
  | last hw => exact .last hw.trim
  | cons hw hends _ ih => exact .cons hw.trim (by rwa [foldl_depthAfter_trim]) ih

/-- One of the texts may be replaced by another that ends at the same depth and in which nothing
separates. -/
theorem Separated.set (h : Separated mark 0 ws) {k : ℕ} {new : List Char} (hk : ws[k]? = some w)
    (hnew : Whole mark 0 w → Whole mark 0 new)
    (hdepth : new.foldl depthAfter 0 = w.foldl depthAfter 0) : Separated mark 0 (ws.set k new) := by
  generalize hzero : (0 : Int) = depth at h
  induction h generalizing k with
  | @last depth w' hw' =>
    subst hzero
    cases k with
    | zero =>
      cases hk
      exact .last (hnew hw')
    | succ k => cases hk
  | @cons depth w' ws hw' hends hrest ih =>
    subst hzero
    cases k with
    | zero =>
      cases hk
      exact .cons (hnew hw') (hdepth.trans hends) hrest
    | succ k => exact .cons hw' hends (ih hk rfl)

/-! ### Joining and splitting -/

/-- Texts that are joined with white space around the mark are found again, up to white space around
each of them. White space around the whole text does not matter. -/
theorem map_trim_splitTopLevel {m : Char} {ms : List Char} (lead trail front back : List Char)
    (hmark : ∀ c ∈ m :: ms, isBlank c = false) (hlead : allBlank lead = true)
    (htrail : allBlank trail = true) (hends : ∀ c ∈ (lead ++ [m]).head?, c ∉ ms)
    (h : Separated (m :: ms) 0 ws) (hfront : allBlank front = true) (hback : allBlank back = true) :
    (splitTopLevel (m :: ms)
      (front ++ (lead ++ (m :: ms) ++ trail).intercalate ws ++ back)).map trim = ws.map trim := by
  have hfree : ∀ {blanks : List Char}, allBlank blanks = true → m ∉ blanks :=
    fun hblanks => not_mem_of_allBlank hblanks (hmark m List.mem_cons_self)
  -- White space separates nothing and belongs to the piece after it.
  have hskip : ∀ {blanks cs piece : List Char} {pieces : List (List Char)},
      allBlank blanks = true → splitTopLevel (m :: ms) cs = piece :: pieces →
      splitTopLevel (m :: ms) (blanks ++ cs) = (blanks ++ piece) :: pieces := by
    intro blanks cs piece pieces hblanks hpieces
    refine piecesFrom_append (hfree hblanks) ?_
    rwa [foldl_depthAfter_of_allBlank hblanks]
  generalize hzero : (0 : Int) = depth at h
  induction h generalizing front with
  | @last depth w hw =>
    subst hzero
    have hbehind : ∀ c ∈ back.head?, c ∉ ms := by
      intro c hc hmem
      exact not_mem_of_allBlank hback (hmark c (List.mem_cons_of_mem _ hmem)) (List.mem_of_mem_head? hc)
    have hlast := hw.piecesFrom_append hbehind (whole_of_not_mem (hfree hback) _)
    rw [List.intercalate_singleton, List.append_assoc, hskip hfront hlast, List.map_singleton,
      ← List.append_assoc, trim_between hfront hback, List.map_singleton]
  | @cons depth w ws hw hdepth hrest ih =>
    subst hzero
    obtain ⟨next, more, rfl⟩ := List.exists_cons_of_ne_nil hrest.ne_nil
    have hlater := ih trail htrail rfl
    generalize hjoin : (lead ++ (m :: ms) ++ trail).intercalate (next :: more) = joined at hlater
    have hsplit : splitTopLevel (m :: ms) (m :: (ms ++ (trail ++ joined ++ back))) =
        [] :: splitTopLevel (m :: ms) (trail ++ joined ++ back) := by
      refine piecesFrom_mark ?_
      rw [afterMark?, if_pos ⟨rfl, by simp⟩]
      exact afterStart?_eq_some.mpr rfl
    have hpieces := hskip hlead hsplit
    rw [splitTopLevel, ← hdepth] at hpieces
    have hfirst := hw.piecesFrom_append (fun c hc => hends c ?_) hpieces
    · have htext : front ++ (w ++ (lead ++ m :: ms ++ trail) ++ joined) ++ back =
          front ++ (w ++ (lead ++ m :: (ms ++ (trail ++ joined ++ back)))) := by
        simp
      rw [List.intercalate_cons_cons, hjoin, htext, hskip hfront hfirst, List.map_cons, hlater,
        List.append_nil, ← List.append_assoc, trim_between hfront hlead]
      rfl
    · rw [List.head?_append] at hc ⊢
      exact hc

/-- Trimming a text trims its first and its last piece at most. -/
theorem map_trim_splitTopLevel_trim {m : Char} {ms : List Char}
    (hmark : ∀ c ∈ m :: ms, isBlank c = false) (hm : m ∉ ms) (cs : List Char) :
    (splitTopLevel (m :: ms) (trim cs)).map trim = (splitTopLevel (m :: ms) cs).map trim := by
  obtain ⟨before, after, hbefore, hafter, htext⟩ := exists_trim cs
  have hends : ∀ c ∈ ([] ++ [m]).head?, c ∉ ms := by
    intro c hc
    cases hc
    exact hm
  have hpieces := map_trim_splitTopLevel [] [] before after hmark rfl rfl hends
    (separated_splitTopLevel (m :: ms) (trim cs)) hbefore hafter
  rw [List.nil_append, List.append_nil, intercalate_splitTopLevel, ← htext] at hpieces
  exact hpieces.symm

end TimedMutation.Text
