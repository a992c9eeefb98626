import TimedMutation.Proofs.Expr.Depth
import TimedMutation.Proofs.Guard.Parts

/-!
The tokens of guards. The parts of a guard are the tokens between its `&&` outside parentheses, and the
relation of a part is one token, so that another comparison in a part is another token in its place.
-/

namespace TimedMutation.Token

variable {t : Token} {ts : List Token} {w cs : List Char} {c : Char}

/-! ### Parts -/

theorem Spells.ampersand (h : Spells t w) (ht : t ≠ both) : '&' ∉ w := by
  refine h.not_mem (by decide) (by decide) ?_
  cases t with
  | number | name => simp [mark]
  | both => exact absurd rfl ht
  | compare op => cases op <;> decide
  | _ => decide

theorem Spells.eq_ampersands (h : Spells both w) : w = ['&', '&'] := by
  obtain ⟨hword, -⟩ | ⟨-, rfl⟩ := h.word_or_mark
  · cases hword
  · rfl

/-- A token that does not separate belongs to the first piece. -/
theorem Spells.piecesFrom_append {d : Int} {piece : List Char} {pieces : List (List Char)}
    (h : Spells t w) (ht : t = both → d ≠ 0)
    (hpieces : Text.piecesFrom ['&', '&'] (d + t.nesting) cs = piece :: pieces) :
    Text.piecesFrom ['&', '&'] d (w ++ cs) = (w ++ piece) :: pieces := by
  by_cases hboth : t = both
  · subst hboth
    obtain rfl := h.eq_ampersands
    have hnone : ∀ rest, Text.afterMark? ['&', '&'] d rest = none := by
      intro rest
      simp [Text.afterMark?, ht rfl]
    have hlevel : d + both.nesting = d := Int.add_zero d
    rw [hlevel] at hpieces
    exact Text.piecesFrom_other (hnone _) (Text.piecesFrom_other (hnone _) hpieces)
  · exact Text.piecesFrom_append (h.ampersand hboth) (by rwa [h.foldl_depthAfter])

/-- A token that separates ends the first piece. -/
theorem Spells.piecesFrom_both (h : Spells both w) (cs : List Char) :
    Text.piecesFrom ['&', '&'] 0 (w ++ cs) = [] :: Text.piecesFrom ['&', '&'] 0 cs := by
  obtain rfl := h.eq_ampersands
  have hmark : Text.afterMark? ['&', '&'] 0 ('&' :: '&' :: cs) = some cs := by
    simp [Text.afterMark?, Text.afterStart?]
  exact Text.piecesFrom_mark hmark

/-- The pieces of a text between `&&` outside parentheses have the tokens between these. -/
theorem Written.pieces (h : Written ts cs) (depth : Int) :
    ∃ tss, [both].intercalate tss = ts ∧
      List.Forall₂ Written tss (Text.piecesFrom ['&', '&'] depth cs) := by
  induction h generalizing depth with
  | nil =>
    refine ⟨[[]], rfl, ?_⟩
    rw [Text.piecesFrom]
    exact .cons .nil .nil
  | @blank ts c cs hc _ ih =>
    have hmark : '&' ∉ [c] := by
      simp only [List.mem_singleton]
      rintro rfl
      cases hc
    obtain ⟨tss, hjoin, hall⟩ := ih (Text.depthAfter depth c)
    obtain ⟨piece, pieces, hpieces⟩ :=
      List.exists_cons_of_ne_nil (Text.piecesFrom_ne_nil ['&', '&'] (Text.depthAfter depth c) cs)
    have hwhole : Text.piecesFrom ['&', '&'] depth (c :: cs) = (c :: piece) :: pieces :=
      Text.piecesFrom_append hmark hpieces
    rw [hpieces] at hall
    rw [hwhole]
    obtain ⟨us, tss, hfirst, hrest, rfl⟩ := List.forall₂_cons_right_iff.mp hall
    exact ⟨us :: tss, hjoin, .cons (.blank hc hfirst) hrest⟩
  | @token t w ts cs hw hends _ ih =>
    by_cases hmark : t = both ∧ depth = 0
    · obtain ⟨rfl, rfl⟩ := hmark
      obtain ⟨tss, hjoin, hall⟩ := ih 0
      have hne : tss ≠ [] := by
        rintro rfl
        exact Text.piecesFrom_ne_nil _ _ _ (List.forall₂_nil_left_iff.mp hall)
      refine ⟨[] :: tss, ?_, hw.piecesFrom_both cs ▸ .cons .nil hall⟩
      rw [List.intercalate_cons_of_ne_nil hne, hjoin]
      rfl
    · -- A token that does not separate pieces passes into the first piece of what follows.
      obtain ⟨tss, hjoin, hall⟩ := ih (depth + t.nesting)
      obtain ⟨piece, pieces, hpieces⟩ :=
        List.exists_cons_of_ne_nil (Text.piecesFrom_ne_nil ['&', '&'] (depth + t.nesting) cs)
      rw [hpieces] at hall
      rw [hw.piecesFrom_append (fun ht hdepth => hmark ⟨ht, hdepth⟩) hpieces]
      obtain ⟨us, tss, hfirst, hrest, rfl⟩ := List.forall₂_cons_right_iff.mp hall
      refine ⟨(t :: us) :: tss, by rw [List.intercalate_cons_cons_left, hjoin], .cons ?_ hrest⟩
      exact .token hw (fun c hc => hends c (Text.head?_piece hpieces c hc)) hfirst

/-- Texts are joined by `&&` as their tokens are. -/
theorem Written.join {tss : List (List Token)} {texts : List (List Char)}
    (h : List.Forall₂ Written tss texts) :
    Written ([both].intercalate tss) ([' ', '&', '&', ' '].intercalate texts) := by
  induction h with
  | nil => exact .nil
  | @cons ts cs tss texts hfirst hrest ih =>
    cases hrest with
    | nil => simpa using hfirst
    | cons hnext hrest =>
      rw [List.intercalate_cons_cons, List.intercalate_cons_cons, List.append_assoc,
        List.append_assoc]
      have hmark : Spells both ['&', '&'] := .symbol rfl
      have hafter := Written.token hmark (fun _ _ => rfl) (.blank (c := ' ') rfl ih)
      refine hfirst.append (.blank (c := ' ') rfl hafter) ?_
      intro t _ c hc
      cases hc
      exact t.joins_blank rfl

/-! ### Relations -/

theorem not_word_of_relation (hc : Relation.isRelationChar c = true) :
    isNameChar c = false ∧ c ≠ '.' := by
  simp only [Relation.isRelationChar, Bool.or_eq_true, beq_iff_eq] at hc
  rcases hc with ((rfl | rfl) | rfl) | rfl <;> decide

/-- Comparisons and `!` have no characters in common with other tokens. -/
theorem Spells.relation (h : Spells t w) :
    (∀ c ∈ w, Relation.isRelationChar c = true) ∨ ∀ c ∈ w, Relation.isRelationChar c = false := by
  rcases h.word_or_mark with ⟨-, hchars⟩ | ⟨hword, rfl⟩
  · refine .inr fun c hc => ?_
    rw [Bool.eq_false_iff]
    intro hrelation
    obtain ⟨hname, hdot⟩ := not_word_of_relation hrelation
    rcases hchars c hc with hc | hc
    · simp [hname] at hc
    · exact hdot hc
  · cases t with
    | number | name => cases hword
    | compare op => exact .inl (List.all_eq_true.mp (by cases op <;> rfl))
    | bang => exact .inl (List.all_eq_true.mp rfl)
    | _ => exact .inr (by simp [mark, Relation.isRelationChar])

/-- A character of a comparison goes on with no token that has none. -/
theorem Spells.joins_relation (h : Spells t w) (hw : ∀ c ∈ w, Relation.isRelationChar c = false)
    (hc : Relation.isRelationChar c = true) : t.joins c = false := by
  rcases h.word_or_mark with ⟨hword, -⟩ | ⟨hword, rfl⟩
  · exact joins_eq_false (fun _ => not_word_of_relation hc) fun hmark => by simp [hword] at hmark
  · cases t with
    | number | name => cases hword
    | bang => exact absurd (hw '!' (by decide)) (by decide)
    | compare op =>
      cases op with
      | lt | le => exact absurd (hw '<' (by decide)) (by decide)
      | gt | ge => exact absurd (hw '>' (by decide)) (by decide)
      | eq => exact absurd (hw '=' (by decide)) (by decide)
      | ne => exact absurd (hw '!' (by decide)) (by decide)
    | _ => rfl

theorem isRelationChar_of_symbol (op : Comparison) :
    ∀ c ∈ op.symbol.toList, Relation.isRelationChar c = true :=
  List.all_eq_true.mp (by cases op <;> rfl)

/-- What starts with the comparison of a relation starts with a character of comparisons. -/
theorem isRelationChar_of_head? (op : Comparison) (cs : List Char) :
    ∀ c ∈ (op.symbol.toList ++ cs).head?, Relation.isRelationChar c = true := by
  intro c hc
  refine isRelationChar_of_symbol op c (List.mem_of_mem_head? ?_)
  cases op <;> exact hc

/-- The comparison of a relation is one token between those of the two sides. -/
theorem Written.sides {text : String} {r : Relation} (h : Written ts text.toList)
    (hr : Relation.ofText text = .ok r) :
    ∃ front back, ts = front ++ compare r.op :: back ∧ Written front r.left.toList ∧
      Written back r.right.toList := by
  obtain ⟨hleft, hright⟩ := Relation.sides_of_ofText hr
  -- No token has characters on both sides of a border between relation characters and others.
  have hborder : ∀ {a b : Char} {t : Token} {w : List Char}, Spells t w → a ∈ w → b ∈ w →
      Relation.isRelationChar a = Relation.isRelationChar b := by
    intro a b t w hw ha hb
    rcases hw.relation with hall | hall <;> rw [hall a ha, hall b hb]
  have htext : r.render.toList = r.left.toList ++ (r.op.symbol.toList ++ r.right.toList) := by
    simp [Relation.render]
  rw [← Relation.render_of_ofText hr, htext] at h
  obtain ⟨front, rest, rfl, hfront, hrest⟩ := h.cut fun a ha b hb t w hw hmem hmem' => by
    have hsame := hborder hw hmem hmem'
    rw [hleft a (List.mem_of_mem_getLast? ha), isRelationChar_of_head? _ _ b hb] at hsame
    cases hsame
  obtain ⟨middle, back, rfl, hmiddle, hback⟩ := hrest.cut fun a ha b hb t w hw hmem hmem' => by
    have hsame := hborder hw hmem hmem'
    rw [isRelationChar_of_symbol _ a (List.mem_of_mem_getLast? ha),
      hright b (List.mem_of_mem_head? hb)] at hsame
    cases hsame
  cases hmiddle.unique (.of_spells (.symbol rfl : Spells (compare r.op) _))
  exact ⟨front, back, by simp, hfront, hback⟩

/-- Where no character of a comparison stands, there is no comparison and no `!`. -/
theorem Written.not_relation (h : Written ts cs)
    (hcs : ∀ c ∈ cs, Relation.isRelationChar c = false) : bang ∉ ts ∧ ∀ op, compare op ∉ ts := by
  have hnone : ∀ {t : Token}, t.isWord = false → (∃ c ∈ t.mark, Relation.isRelationChar c = true) →
      t ∉ ts := by
    rintro t hword ⟨c, hc, hrelation⟩ ht
    obtain ⟨w, hw, hmem⟩ := h.exists_word ht
    rcases hw.word_or_mark with ⟨hword', -⟩ | ⟨-, rfl⟩
    · simp [hword] at hword'
    · simp [hcs c (hmem c hc)] at hrelation
  refine ⟨hnone rfl ⟨'!', by decide⟩, fun op => hnone rfl ?_⟩
  obtain ⟨c, hc⟩ := List.exists_mem_of_ne_nil op.symbol.toList (by cases op <;> decide)
  exact ⟨c, hc, isRelationChar_of_symbol op c hc⟩

/-- Another comparison may be written in the place of that of a relation. -/
theorem Written.relation {text : String} {r : Relation} (h : Written ts text.toList)
    (hr : Relation.ofText text = .ok r) :
    ∃ front back, ts = front ++ compare r.op :: back ∧
      ∀ op, Written (front ++ compare op :: back) (r.withOp op).render.toList := by
  obtain ⟨hleft, hright⟩ := Relation.sides_of_ofText hr
  obtain ⟨front, back, rfl, hfront, hback⟩ := h.sides hr
  refine ⟨front, back, rfl, fun op => ?_⟩
  have hop : Written [compare op] op.symbol.toList := .of_spells (.symbol rfl)
  have hrest : Written (compare op :: back) (op.symbol.toList ++ r.right.toList) := by
    refine hop.append hback fun t ht c hc => ?_
    cases ht
    refine joins_eq_false (fun hword => by cases hword) ?_
    rintro - rfl
    exact absurd (hright '=' (List.mem_of_mem_head? hc)) (by decide)
  have htext : (r.withOp op).render.toList =
      r.left.toList ++ (op.symbol.toList ++ r.right.toList) := by
    simp [Relation.render, Relation.withOp]
  rw [htext]
  refine hfront.append hrest fun t ht c hc => ?_
  obtain ⟨w, hw, hmem⟩ := hfront.exists_word (List.mem_of_mem_getLast? ht)
  exact hw.joins_relation (fun d hd => hleft d (hmem d hd)) (isRelationChar_of_head? op _ c hc)

/-! ### Guards -/

theorem exists_of_getElem? {tss : List (List Token)} {texts : List (List Char)} {k : ℕ}
    (h : List.Forall₂ Written tss texts) {text : List Char} (hk : texts[k]? = some text) :
    ∃ ts, tss[k]? = some ts ∧ Written ts text := by
  induction h generalizing k with
  | nil => simp at hk
  | @cons ts cs tss texts hfirst _ ih =>
    cases k with
    | zero =>
      cases hk
      exact ⟨ts, rfl, hfirst⟩
    | succ k => exact ih (k := k) hk

theorem forall₂_set {tss : List (List Token)} {texts : List (List Char)} {text : List Char}
    (h : List.Forall₂ Written tss texts) (hts : Written ts text) (k : ℕ) :
    List.Forall₂ Written (tss.set k ts) (texts.set k text) := by
  induction h generalizing k with
  | nil => exact .nil
  | cons hfirst hrest ih =>
    cases k with
    | zero => exact .cons hts hrest
    | succ k => exact .cons hfirst (ih k)

/-- Another comparison in one part of a guard is another token in its place. -/
theorem Written.withOp {text part : String} {guard : Conjunction} {k : ℕ} {r : Relation}
    (h : Written ts text.toList) (hguard : Conjunction.ofText text = .ok guard)
    (hpart : guard.parts[k]? = some part) (hr : Relation.ofText part = .ok r) :
    ∃ front back, ts = front ++ compare r.op :: back ∧ ∀ op,
      Written (front ++ compare op :: back)
        (Conjunction.mk (guard.parts.set k (r.withOp op).render)).render.toList := by
  rcases Conjunction.parts_of_ofText hguard with ⟨-, hnil⟩ | hparts
  · simp [hnil] at hpart
  · obtain ⟨tss, rfl, hpieces⟩ := h.pieces 0
    have hall : List.Forall₂ Written tss (guard.parts.map String.toList) := by
      rw [hparts, List.map_map, List.forall₂_map_right_iff]
      exact hpieces.imp fun ts cs hpiece => by simpa using hpiece.trim
    obtain ⟨old, hold, hwritten⟩ := exists_of_getElem? hall (by rw [List.getElem?_map, hpart]; rfl)
    obtain ⟨front, back, rfl, hswap⟩ := hwritten.relation hr
    obtain ⟨before, after, hjoin, hset⟩ := Text.exists_intercalate_set [both] hold
    refine ⟨before ++ front, back ++ after, by simp [hjoin], fun op => ?_⟩
    have hwhole := Written.join (forall₂_set hall (hswap op) k)
    rw [hset, ← List.map_set] at hwhole
    rw [Conjunction.render, String.toList_intercalate]
    simpa using hwhole

end TimedMutation.Token
