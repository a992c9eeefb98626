import TimedMutation.Guard.Conjunction
import TimedMutation.Guard.Literal
import TimedMutation.Guard.Relation
import TimedMutation.Proofs.Text.Numeral
import TimedMutation.Proofs.Text.Pieces

/-! What the parts, the relations and the numbers of a guard are of its text. -/

namespace TimedMutation

/-! ### Numbers -/

/-- A number stands in the text as its digits. -/
theorem of_mem_literalsFrom {read cs : List Char} {l : IntegerLiteral}
    (h : l ∈ literalsFrom read cs) :
    l.before ++ l.digits ++ l.after = read.reverse ++ cs ∧
      (∀ c ∈ l.digits, Decimal.isDigit c = true) ∧ l.value = Decimal.digitsValue l.digits := by
  fun_induction literalsFrom read cs with
  | case1 => simp at h
  | case2 read c rest hdigit digits after hglued skipped ih =>
    obtain ⟨htext, hdigits⟩ := ih h
    refine ⟨?_, hdigits⟩
    rw [htext]
    simp [digits, after, skipped]
  | case3 read c rest hdigit digits after hglued value others hword ih =>
    rcases List.mem_cons.mp h with rfl | h
    · refine ⟨by simp [digits, after], ?_, rfl⟩
      intro d hd
      rcases List.mem_cons.mp hd with rfl | hd
      · exact hdigit
      · exact List.mem_takeWhile_imp hd
    · obtain ⟨htext, hdigits⟩ := ih h
      refine ⟨?_, hdigits⟩
      rw [htext]
      simp [digits, after]
  | case4 read c rest hdigit digits after hglued value others hword ih =>
    obtain ⟨htext, hdigits⟩ := ih h
    refine ⟨?_, hdigits⟩
    rw [htext]
    simp [digits, after]
  | case5 read c rest hdigit ih =>
    obtain ⟨htext, hdigits⟩ := ih h
    refine ⟨?_, hdigits⟩
    rw [htext]
    simp

/-- Another value cannot be written with the digits of a number. -/
theorem IntegerLiteral.replacedBy_ne {text : String} {l : IntegerLiteral}
    (h : l ∈ integerLiterals text) {value : Int} (hvalue : value ≠ l.value) :
    l.replacedBy (Text.ofInt value) ≠ text := by
  obtain ⟨htext, hdigits, hread⟩ := of_mem_literalsFrom h
  intro hsame
  have hlist : l.before ++ (Text.ofInt value).toList ++ l.after = l.before ++ l.digits ++ l.after := by
    rw [htext, List.reverse_nil, List.nil_append, ← hsame]
    simp [replacedBy]
  have hwritten : (Text.ofInt value).toList = l.digits :=
    List.append_cancel_left (List.append_cancel_right hlist)
  cases value with
  | ofNat n =>
    have hn : Decimal.digitsValue l.digits = n := hwritten ▸ Text.digitsValue_ofNat n
    exact hvalue (by rw [hread, hn]; rfl)
  | negSucc n =>
    have hminus : '-' ∈ l.digits := by
      rw [← hwritten]
      simp [Text.ofInt]
    exact absurd (hdigits '-' hminus) (by decide)

/-! ### Relations -/

/-- The text of a relation is kept. -/
theorem Relation.render_of_ofText {text : String} {r : Relation} (h : ofText text = .ok r) :
    r.render = text := by
  have hsplit := List.takeWhile_append_dropWhile (p := fun c => !isRelationChar c) (l := text.toList)
  simp only [ofText] at h
  generalize text.toList.dropWhile (fun c => !isRelationChar c) = rest at h hsplit
  split at h
  · simp at h
  · split at h
    · simp at h
    · rename_i op right hop
      split at h
      · simp at h
      · split at h
        · simp at h
        · cases h
          rw [eq_of_operatorAt? hop] at hsplit
          refine String.toList_inj.mp (Eq.trans ?_ hsplit)
          simp [render]

/-- Neither side of a relation has a character of a comparison. -/
theorem Relation.sides_of_ofText {text : String} {r : Relation} (h : ofText text = .ok r) :
    (∀ c ∈ r.left.toList, isRelationChar c = false) ∧
      ∀ c ∈ r.right.toList, isRelationChar c = false := by
  simp only [ofText] at h
  split at h
  · simp at h
  · split at h
    · simp at h
    · rename_i op right hop
      split at h
      · simp at h
      · split at h
        · simp at h
        · rename_i hright
          cases h
          simp only [String.toList_ofList]
          refine ⟨fun c hc => ?_, by simpa using hright⟩
          simpa using List.mem_takeWhile_imp hc

/-- The symbols of two comparisons differ in their characters, not only in the order of them. -/
theorem Comparison.exists_count_ne {op op' : Comparison} (h : op ≠ op') :
    ∃ c, Text.isBlank c = false ∧ c ≠ '&' ∧
      op.symbol.toList.count c ≠ op'.symbol.toList.count c := by
  cases op <;> cases op' <;>
    first
    | exact absurd rfl h
    | exact ⟨'<', by decide⟩
    | exact ⟨'>', by decide⟩
    | exact ⟨'=', by decide⟩

/-! ### Parts -/

namespace Conjunction

variable {text : String} {guard : Conjunction}

theorem parts_of_ofText (h : ofText text = .ok guard) :
    (Text.allBlank text.toList = true ∧ guard.parts = []) ∨
      guard.parts = (Text.splitTopLevel ['&', '&'] text.toList).map fun piece =>
        String.ofList (Text.trim piece) := by
  simp only [ofText] at h
  split at h
  · rename_i hblank
    cases h
    exact .inl ⟨hblank, rfl⟩
  · split at h
    · simp at h
    · cases h
      exact .inr (by simp)

/-- Every character other than white space and `&` stands in a text as often as in its parts. -/
theorem count_of_ofText (h : ofText text = .ok guard) {c : Char} (hblank : Text.isBlank c = false)
    (hc : c ≠ '&') : text.toList.count c = Text.occurrences c guard.parts := by
  rcases parts_of_ofText h with ⟨hall, hnil⟩ | hparts
  · rw [hnil, ← Text.count_squeeze hblank, Text.squeeze_of_allBlank hall]
    rfl
  · rw [hparts]
    exact Text.count_pieces (by simp [hc]) hblank text.toList

theorem count_render {c : Char} (hblank : Text.isBlank c = false) (hc : c ≠ '&')
    (guard : Conjunction) : guard.render.toList.count c = Text.occurrences c guard.parts := by
  refine Text.count_join ?_ guard.parts
  have hspace : c ≠ ' ' := by
    rintro rfl
    simp [Text.isBlank] at hblank
  simp [hc, hspace]

/-- A text with one of its parts replaced is not the same if some character, neither white space nor
`&`, stands in the new part more or less often. -/
theorem render_set_ne (h : ofText text = .ok guard) {k : ℕ} {old new : String}
    (hk : guard.parts[k]? = some old) {c : Char} (hblank : Text.isBlank c = false) (hc : c ≠ '&')
    (hcount : new.toList.count c ≠ old.toList.count c) :
    (Conjunction.mk (guard.parts.set k new)).render ≠ text := by
  intro hsame
  have hset := Text.occurrences_set c hk new
  have hnew := count_render hblank hc ⟨guard.parts.set k new⟩
  rw [hsame, count_of_ofText h hblank hc] at hnew
  simp only at hnew
  omega

end Conjunction

end TimedMutation
