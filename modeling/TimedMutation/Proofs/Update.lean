import Mathlib.Data.List.InsertIdx
import TimedMutation.Proofs.Outcome
import TimedMutation.Proofs.Text.Pieces
import TimedMutation.Update

/-! What an update keeps of its text, and that an update in which an assignment is replaced, added or
left out is written differently. -/

namespace TimedMutation

/-- Names are written in ASCII. -/
theorem code_of_isNameChar {c : Char} (h : isNameChar c = true) :
    0x30 ≤ c.toNat ∧ c.toNat ≤ 0x7A := by
  unfold isNameChar Char.isAlphanum Char.isAlpha Char.isUpper Char.isLower Char.isDigit at h
  simp only [Bool.or_eq_true, Bool.and_eq_true, decide_eq_true_eq, beq_iff_eq, ge_iff_le,
    UInt32.le_iff_toNat_le] at h
  rcases h with ((⟨hl, hu⟩ | ⟨hl, hu⟩) | ⟨hl, hu⟩) | rfl
  · exact ⟨Nat.le_trans (by decide) hl, Nat.le_trans hu (by decide)⟩
  · exact ⟨Nat.le_trans (by decide) hl, hu⟩
  · exact ⟨hl, Nat.le_trans hu (by decide)⟩
  · exact ⟨by decide, by decide⟩

theorem isBlank_of_isNameChar {c : Char} (h : isNameChar c = true) : Text.isBlank c = false := by
  have hcode := code_of_isNameChar h
  exact Text.isBlank_of_between (by omega) (by omega)

theorem isNameChar_of_isBlank {c : Char} (h : Text.isBlank c = true) : isNameChar c = false := by
  rw [Bool.eq_false_iff]
  intro hname
  simp [isBlank_of_isNameChar hname] at h

/-- The tokens of a text are its first one and those of the rest. -/
theorem Token.scanFrom_of_at? {c : Char} {rest after : List Char} {t : Token}
    (hblank : Text.isBlank c = false) (hat : at? (c :: rest) = some (t, after)) (offset : ℕ) :
    scanFrom offset (c :: rest) =
      (scanFrom (offset + (rest.length + 1 - after.length)) after).map (t :: ·) := by
  conv_lhs => unfold scanFrom
  simp only [hblank, Bool.false_eq_true, if_false]
  split
  · rename_i t' after' hfound
    rw [hat] at hfound
    cases hfound
    cases scanFrom (offset + (rest.length + 1 - after.length)) after <;> rfl
  · rename_i hfound
    rw [hat] at hfound
    simp at hfound

/-- A text that is one token. -/
theorem Token.scan_eq_single {c : Char} {rest : List Char} {t : Token}
    (hblank : Text.isBlank c = false) (hat : at? (c :: rest) = some (t, [])) :
    scan (c :: rest) = .ok [t] := by
  rw [scan, scanFrom_of_at? hblank hat]
  unfold scanFrom
  rfl

/-- The numeral zero is read as zero. -/
theorem Expr.ofText_zero : ofText "0" = .ok (.number 0.0) := by
  have hzero : Decimal.Numeral.toFloat ⟨0, 0⟩ = 0.0 := by simp [Decimal.Numeral.toFloat]
  have hat : Token.at? ['0'] = some (.number 0.0, []) := hzero ▸ rfl
  have hchars : "0".toList = ['0'] := rfl
  rw [ofText, hchars, Token.scan_eq_single (by decide) hat]
  rfl

namespace Assignment

variable {text name value : String} {a : Assignment}

theorem isNameChar_of_isIdentifier {cs : List Char} (h : isIdentifier cs = true) {c : Char}
    (hc : c ∈ cs) : isNameChar c = true := by
  cases cs with
  | nil => simp at hc
  | cons first cs =>
    simp only [isIdentifier, Bool.and_eq_true, List.all_eq_true] at h
    rcases List.mem_cons.mp hc with rfl | hc
    · have hstart := h.1
      simp only [isNameStart, Bool.or_eq_true] at hstart
      simp only [isNameChar, Char.isAlphanum, Bool.or_eq_true]
      exact hstart.imp .inl id
    · exact h.2 c hc

/-- An assignment keeps its text and names an identifier; its value is what follows the first equals
sign, read as an expression. -/
theorem of_ofText (h : ofText text = .ok a) :
    a.text = text ∧ isIdentifier a.target.toList = true ∧ Expr.ofText a.value = .ok a.expr ∧
      ∃ before after, Text.cutAt? ['='] text.toList = some (before, after) ∧
        a.value = String.ofList (Text.trim after) := by
  simp only [ofText] at h
  split at h
  · simp at h
  · rename_i before after hcut
    split at h
    · simp at h
    · rename_i htarget
      split at h
      · simp at h
      · obtain ⟨expr, hexpr, h⟩ := bind_eq_ok.mp h
        cases pure_eq_ok.mp h
        exact ⟨rfl, by simpa using htarget, hexpr, before, after, hcut, rfl⟩

/-- A text is read as an assignment if a name stands before its first equals sign and an expression
after it. -/
theorem ofText_of_cut {before after : List Char} {target : String} {e : Expr}
    (hcut : Text.cutAt? ['='] text.toList = some (before, after))
    (htarget : Text.trim ((Text.beforeEnd? [':'] before).getD before) = target.toList)
    (hname : isIdentifier target.toList = true) (hvalue : Text.trim after = value.toList)
    (hstart : (value.toList.isEmpty || value.toList.head? == some '=') = false)
    (hexpr : Expr.ofText value = .ok e) : ofText text = .ok ⟨text, target, value, e⟩ := by
  simp only [ofText, hcut, htarget, hname, hvalue, hstart, String.ofList_toList, hexpr]
  rfl

theorem equals_mem_of_ofText (h : ofText text = .ok a) : '=' ∈ text.toList := by
  obtain ⟨-, -, -, before, after, hcut, -⟩ := of_ofText h
  rw [Text.eq_of_cutAt? hcut]
  simp

/-- The value of an assignment that is made of a name and a value without white space. -/
theorem value_of_ofText (h : ofText (name ++ " = " ++ value) = .ok a) (hname : '=' ∉ name.toList)
    (hvalue : ∀ c ∈ value.toList, Text.isBlank c = false) : a.value = value := by
  obtain ⟨-, -, -, before, after, hcut, hread⟩ := of_ofText h
  have htext : (name ++ " = " ++ value).toList =
      (name.toList ++ [' ']) ++ '=' :: ' ' :: value.toList := by
    simp
  rw [htext, Text.cutAt?_append (by simp [hname])] at hcut
  cases hcut
  rw [hread, Text.trim_cons_of_blank (by decide), Text.trim_of_no_blank hvalue, String.ofList_toList]

theorem isBlank_zero : ∀ c ∈ "0".toList, Text.isBlank c = false := by
  intro c hc
  cases List.mem_singleton.mp hc
  decide

theorem isReset_of_ofText (h : ofText (name ++ " = " ++ "0") = .ok a) (hname : '=' ∉ name.toList) :
    a.isReset = true := by
  obtain ⟨-, -, hexpr, -⟩ := of_ofText h
  rw [value_of_ofText h hname isBlank_zero, Expr.ofText_zero] at hexpr
  rw [isReset, ← Except.ok.inj hexpr]
  decide

/-- What a reset assigns is zero. -/
theorem zero_of_isReset (a : Assignment) (hreset : a.isReset = true) {v : Valuation} {y : Float}
    (h : a.evaluate v = .ok y) : (y == 0.0) = true := by
  unfold isReset at hreset
  split at hreset
  · rename_i x hx
    rw [evaluate, hx] at h
    cases h
    exact hreset
  · cases hreset

end Assignment

namespace Update

variable {text : String} {u : Update}

/-- The texts of the assignments in their order. -/
def texts (u : Update) : List String := u.assignments.map (·.text)

theorem texts_of_forall₂ {parts : List String} {assignments : List Assignment}
    (h : List.Forall₂ (fun part a => Assignment.ofText part = .ok a) parts assignments) :
    assignments.map (·.text) = parts := by
  induction h with
  | nil => rfl
  | cons hfirst _ ih => rw [List.map_cons, ih, (Assignment.of_ofText hfirst).1]

theorem texts_erase (u : Update) (k : ℕ) : (u.erase k).texts = u.texts.eraseIdx k := by
  simp [texts, erase, List.eraseIdx_map]

/-- An update without assignments is blank or one; any other is written as its assignments between
commas. -/
theorem of_ofText (h : ofText text = .ok u) :
    (u.assignments = [] ∧ (Text.trim text.toList = [] ∨ Text.trim text.toList = ['1'])) ∨
      (u.texts = (Text.splitTopLevel [','] (Text.trim text.toList)).map fun piece =>
        String.ofList (Text.trim piece)) ∧
      ∀ a ∈ u.assignments, Assignment.ofText a.text = .ok a := by
  simp only [ofText] at h
  split at h
  · rename_i hnone
    cases h
    exact .inl ⟨rfl, by simpa using hnone⟩
  · obtain ⟨assignments, hread, h⟩ := bind_eq_ok.mp h
    cases pure_eq_ok.mp h
    refine .inr ⟨texts_of_forall₂ (forall₂_of_mapM hread), ?_⟩
    intro a ha
    obtain ⟨part, -, hpart⟩ := exists_of_mem_mapM hread ha
    rwa [(Assignment.of_ofText hpart).1]

/-- A text with something in it is read as an update if its parts are read as assignments. -/
theorem ofText_of_parts {parts : List String} {assignments : List Assignment}
    (hsome : ((Text.trim text.toList).isEmpty || Text.trim text.toList == ['1']) = false)
    (hparts : ((Text.splitTopLevel [','] (Text.trim text.toList)).map fun part =>
      String.ofList (Text.trim part)) = parts)
    (hread : parts.mapM Assignment.ofText = .ok assignments) : ofText text = .ok ⟨assignments⟩ := by
  simp only [ofText, hsome, hparts, hread]
  rfl

theorem assignment_of_ofText (h : ofText text = .ok u) {a : Assignment} (ha : a ∈ u.assignments) :
    Assignment.ofText a.text = .ok a := by
  rcases of_ofText h with ⟨hnil, -⟩ | ⟨-, hall⟩
  · simp [hnil] at ha
  · exact hall a ha

theorem equals_not_mem_target (h : ofText text = .ok u) {a : Assignment} (ha : a ∈ u.assignments) :
    '=' ∉ a.target.toList := by
  intro hmem
  obtain ⟨-, hname, -⟩ := Assignment.of_ofText (assignment_of_ofText h ha)
  exact absurd (Assignment.isNameChar_of_isIdentifier hname hmem) (by decide)

/-- There are as many equals signs in an update as in its assignments. -/
theorem count_of_ofText (h : ofText text = .ok u) :
    text.toList.count '=' = Text.occurrences '=' u.texts := by
  rw [← Text.count_trim (by decide) text.toList]
  rcases of_ofText h with ⟨hnil, hblank | hone⟩ | ⟨htexts, -⟩
  · simp [texts, hnil, hblank, Text.occurrences]
  · simp [texts, hnil, hone, Text.occurrences]
  · rw [htexts]
    exact Text.count_pieces (by decide) (by decide) _

theorem count_render (u : Update) : u.render.toList.count '=' = Text.occurrences '=' u.texts :=
  Text.count_join (by decide) u.texts

/-- An update is written differently without one of its assignments. -/
theorem render_erase_ne (h : ofText text = .ok u) {k : ℕ} (hk : k < u.assignments.length) :
    (u.erase k).render ≠ text := by
  intro hsame
  have hold : u.texts[k]? = some u.assignments[k].text := by simp [texts, hk]
  have herase := Text.occurrences_eraseIdx '=' hold
  have hequals : 0 < u.assignments[k].text.toList.count '=' :=
    List.count_pos_iff.mpr
      (Assignment.equals_mem_of_ofText (assignment_of_ofText h (List.getElem_mem hk)))
  have hrender := count_render (u.erase k)
  rw [hsame, count_of_ofText h, texts_erase] at hrender
  omega

/-- An update is written differently with an assignment more. -/
theorem render_append_ne (h : ofText text = .ok u) {new : String} {a : Assignment}
    (ha : Assignment.ofText new = .ok a) : (Update.mk (u.assignments ++ [a])).render ≠ text := by
  intro hsame
  have hequals : 0 < a.text.toList.count '=' := by
    rw [(Assignment.of_ofText ha).1]
    exact List.count_pos_iff.mpr (Assignment.equals_mem_of_ofText ha)
  have hrender := count_render ⟨u.assignments ++ [a]⟩
  have hmore : (Update.mk (u.assignments ++ [a])).texts = u.texts ++ [a.text] := by simp [texts]
  rw [hsame, count_of_ofText h, hmore, Text.occurrences_append] at hrender
  rw [Text.occurrences_cons] at hrender
  omega

/-- An update is written differently with another text in the place of one of its assignments,
however much white space it has. -/
theorem render_set_ne (h : ofText text = .ok u) {k : ℕ} {old a : Assignment}
    (hk : u.assignments[k]? = some old) (hbare : Text.Bare a.text.toList) (hne : a.text ≠ old.text) :
    (Update.mk (u.assignments.set k a)).render ≠ text := by
  intro hsame
  have hmem : old ∈ u.assignments := List.mem_of_getElem? hk
  rcases of_ofText h with ⟨hnil, -⟩ | ⟨htexts, hall⟩
  · simp [hnil] at hmem
  · obtain ⟨before, after, hbefore, hafter, htrim⟩ := Text.exists_trim text.toList
    generalize hpieces : Text.splitTopLevel [','] (Text.trim text.toList) = pieces at htexts
    have hjoin : [','].intercalate pieces = Text.trim text.toList := by
      rw [← hpieces, Text.intercalate_splitTopLevel]
    have hold : (pieces.map fun piece => String.ofList (Text.trim piece))[k]? = some old.text := by
      rw [← htexts, texts, List.getElem?_map, hk]
      rfl
    rw [List.getElem?_map, Option.map_eq_some_iff] at hold
    obtain ⟨piece, hpiece, hread⟩ := hold
    have hequals := Assignment.equals_mem_of_ofText (hall old hmem)
    rw [← hread, String.toList_ofList] at hequals
    have hlists : u.texts.map String.toList = pieces.map Text.trim := by
      simp [htexts, Function.comp_def]
    have hwritten : [',', ' '].intercalate ((pieces.map Text.trim).set k a.text.toList) =
        before ++ [','].intercalate pieces ++ after := by
      rw [hjoin, ← htrim, ← hsame, render, String.toList_intercalate, ← hlists, texts, List.map_set,
        List.map_set]
      rfl
    have hmark : Text.squeeze [',', ' '] = Text.squeeze [','] := by decide
    have hnew := Text.piece_of_join_eq hmark hbefore hafter hpiece
      (Text.bare_trim (List.ne_nil_of_mem hequals)) hbare hwritten
    exact hne (by rw [← hread, ← hnew, String.ofList_toList])

/-- An update is written differently after a value was assigned to a name, unless the first
assignment to that name is the new one. -/
theorem render_assign_ne (h : ofText text = .ok u) {name value : String} {mutated : Update}
    (hassign : u.assign name value = .ok mutated) (hvalue : value.toList ≠ [])
    (hblank : ∀ c ∈ value.toList, Text.isBlank c = false)
    (hother : ∀ old, u.assignments.find? (fun a => a.target == name) = some old →
      Assignment.ofText (name ++ " = " ++ value) ≠ .ok old) : mutated.render ≠ text := by
  obtain ⟨a, ha, hassign⟩ := bind_eq_ok.mp hassign
  cases hposition : u.position? name with
  | none =>
    simp only [hposition] at hassign
    cases pure_eq_ok.mp hassign
    exact render_append_ne h ha
  | some k =>
    simp only [hposition] at hassign
    cases pure_eq_ok.mp hassign
    obtain ⟨hlt, htarget, -⟩ := List.findIdx?_eq_some_iff_getElem.mp hposition
    have hk : u.assignments[k]? = some u.assignments[k] := by simp [hlt]
    have hfirst : u.assignments.find? (fun a => a.target == name) = some u.assignments[k] := by
      rw [List.find?_eq_bind_findIdx?_getElem?, ← position?, hposition]
      exact hk
    have hread := assignment_of_ofText h (List.getElem_mem hlt)
    obtain ⟨-, hname, -⟩ := Assignment.of_ofText hread
    have htarget : u.assignments[k].target = name := by simpa using htarget
    rw [htarget] at hname
    have hbare : Text.Bare (name.toList ++ " = ".toList ++ value.toList) := by
      have hname' : name.toList ≠ [] := by
        intro hnil
        simp [hnil, Assignment.isIdentifier] at hname
      refine (Text.bare_of_no_blank hname' fun c hc => ?_).append
        (Text.bare_of_no_blank hvalue hblank) _
      exact isBlank_of_isNameChar (Assignment.isNameChar_of_isIdentifier hname hc)
    have htext : a.text = name ++ " = " ++ value := (Assignment.of_ofText ha).1
    refine render_set_ne h hk (by simpa [htext] using hbare) ?_
    intro hsame
    rw [hsame] at htext
    rw [htext] at hread
    exact hother _ hfirst hread

end Update

end TimedMutation
