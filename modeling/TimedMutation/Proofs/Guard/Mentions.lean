import TimedMutation.Guard.Name
import TimedMutation.Proofs.Expr.Eval
import TimedMutation.Proofs.Guard.Literals

/-! Names that are looked for in the text of a guard. The runs of name characters in the text of an
expression are those of its words, so that a name is found exactly where the expression refers to
it. -/

namespace TimedMutation

/-- The names that are joined by dots in a qualified name. -/
def components (name : String) : List String := (name.toList.splitOn '.').map String.ofList

/-! ### Runs of name characters -/

section

variable {w cs r : List Char} {c : Char} {p q : Char → Bool}

theorem mem_of_mem_splitOnP (hr : r ∈ cs.splitOnP p) (hc : c ∈ r) : c ∈ cs := by
  induction cs generalizing r with
  | nil =>
    cases List.mem_singleton.mp hr
    cases hc
  | cons d cs ih =>
    obtain ⟨piece, pieces, hpieces⟩ := List.exists_cons_of_ne_nil (List.splitOnP_ne_nil p cs)
    rw [List.splitOnP_cons_eq_if_modifyHead] at hr
    split at hr
    · rcases List.mem_cons.mp hr with rfl | hr
      · cases hc
      · exact List.mem_cons_of_mem d (ih hr hc)
    · rw [hpieces] at hr ih
      rcases List.mem_cons.mp hr with rfl | hr
      · rcases List.mem_cons.mp hc with rfl | hc
        · exact List.mem_cons_self
        · exact List.mem_cons_of_mem d (ih List.mem_cons_self hc)
      · exact List.mem_cons_of_mem d (ih (List.mem_cons_of_mem _ hr) hc)

theorem splitOnP_congr (h : ∀ c ∈ cs, p c = q c) : cs.splitOnP p = cs.splitOnP q := by
  induction cs with
  | nil => rfl
  | cons c cs ih =>
    rw [List.splitOnP_cons_eq_if_modifyHead, List.splitOnP_cons_eq_if_modifyHead,
      h c List.mem_cons_self, ih fun d hd => h d (List.mem_cons_of_mem c hd)]

/-- A run with something in it is no part of characters that end runs. -/
theorem mem_splitOnP_append_of_forall (hr : r ≠ []) (hw : ∀ c ∈ w, p c = true) :
    r ∈ (w ++ cs).splitOnP p ↔ r ∈ cs.splitOnP p := by
  induction w with
  | nil => rfl
  | cons c w ih =>
    rw [List.cons_append, List.splitOnP_cons_eq_if_modifyHead, if_pos (hw c List.mem_cons_self),
      List.mem_cons, ih fun d hd => hw d (List.mem_cons_of_mem c hd)]
    simp [hr]

/-- A run with something in it stands on one side of a place where runs end. -/
theorem mem_splitOnP_append (hr : r ≠ []) (hcs : ∀ c ∈ cs.head?, p c = true) :
    r ∈ (w ++ cs).splitOnP p ↔ r ∈ w.splitOnP p ∨ r ∈ cs.splitOnP p := by
  cases cs with
  | nil => simp [hr]
  | cons c cs =>
    have hc : p c = true := hcs c rfl
    rw [List.splitOnP_append_cons w cs hc, List.splitOnP_cons_eq_if_modifyHead, if_pos hc]
    simp [hr]

end

/-! ### Words -/

namespace Token

variable {t : Token} {ts : List Token} {w cs r : List Char} {c : Char}

/-- The text of a number has no start of a name. -/
theorem Spells.not_isNameStart {x : Float} (h : Spells (number x) w) (hc : c ∈ w) :
    isNameStart c = false := by
  rw [Bool.eq_false_iff]
  intro hstart
  have hdigit : Decimal.isDigit c = false := isDigit_of_isNameStart hstart
  cases h with
  | whole _ hdigits => simp [hdigits c hc] at hdigit
  | @fraction digits part _ hdigits _ hpart =>
    rcases List.mem_append.mp hc with hc | hc
    · simp [hdigits c hc] at hdigit
    · rcases List.mem_cons.mp hc with rfl | hc
      · cases hstart
      · simp [hpart c hc] at hdigit
  | symbol ht => cases ht

/-- The runs of a word that are names are those of a name, between its dots. -/
theorem Spells.mem_runs (h : Spells t w) (ht : t.isWord = true)
    (hr : Assignment.isIdentifier r = true) :
    r ∈ w.splitOnP (fun c => !isNameChar c) ↔
      ∃ s, t = Token.name s ∧ r ∈ s.toList.splitOn '.' := by
  cases t with
  | number x =>
    refine iff_of_false (fun hmem => ?_) fun ⟨s, hs, _⟩ => by cases hs
    cases r with
    | nil => cases hr
    | cons c r =>
      simp only [Assignment.isIdentifier, Bool.and_eq_true] at hr
      have hstart : isNameStart c = false :=
        h.not_isNameStart (mem_of_mem_splitOnP hmem List.mem_cons_self)
      simp [hr.1] at hstart
  | name s =>
    have htext : s.toList = w := h.toList_eq
    have hends : ∀ c ∈ w, (!isNameChar c) = (c == '.') := by
      intro c hc
      obtain ⟨-, hchars⟩ | ⟨hmark, -⟩ := h.word_or_mark
      · rcases hchars c hc with hname | rfl
        · have hdot : c ≠ '.' := by
            rintro rfl
            cases hname
          simp [hname, hdot]
        · decide
      · cases hmark
    rw [splitOnP_congr hends, ← List.splitOn_eq_splitOnP]
    simp [htext]
  | _ => cases ht

/-- The runs of name characters in a text that are names are those of the names among its tokens. -/
theorem Written.mem_runs (h : Written ts cs) (hapart : ts.IsChain Apart)
    (hr : Assignment.isIdentifier r = true) :
    r ∈ cs.splitOnP (fun c => !isNameChar c) ↔
      ∃ s, Token.name s ∈ ts ∧ r ∈ s.toList.splitOn '.' := by
  have hne : r ≠ [] := by
    rintro rfl
    cases hr
  induction h with
  | nil => simp [hne]
  | @blank ts c cs hc _ ih =>
    have hends : (!isNameChar c) = true := by rw [isNameChar_of_isBlank hc, Bool.not_false]
    rw [List.splitOnP_cons_eq_if_modifyHead, if_pos hends, List.mem_cons]
    simpa [hne] using ih hapart
  | @token t w ts cs hw _ hrest ih =>
    obtain ⟨hnext, htail⟩ := List.isChain_cons.mp hapart
    cases ht : t.isWord with
    | true =>
      have hends : ∀ c ∈ cs.head?, (!isNameChar c) = true := by
        intro c hc
        have hglues := hrest.head?_not_glues (fun u hu => isWord_of_apart_left (hnext u hu) ht) c hc
        rw [isNameChar_of_not_glues hglues, Bool.not_false]
      refine (mem_splitOnP_append hne hends).trans
        ((or_congr (hw.mem_runs ht hr) (ih htail)).trans ?_)
      simp only [List.mem_cons]
      constructor
      · rintro (⟨s, rfl, hs⟩ | ⟨s, hmem, hs⟩)
        · exact ⟨s, .inl rfl, hs⟩
        · exact ⟨s, .inr hmem, hs⟩
      · rintro ⟨s, hsame | hmem, hs⟩
        · exact .inl ⟨s, hsame.symm, hs⟩
        · exact .inr ⟨s, hmem, hs⟩
    | false =>
      have hnone : ∀ c ∈ w, (!isNameChar c) = true := by
        intro c hc
        rw [isNameChar_of_not_glues (hw.not_glues ht c hc), Bool.not_false]
      refine (mem_splitOnP_append_of_forall hne hnone).trans ((ih htail).trans ?_)
      refine exists_congr fun s => and_congr_left fun _ => ?_
      have hother : Token.name s ≠ t := by
        rintro rfl
        cases ht
      simp [hother]

end Token

/-! ### Names -/

/-- A name is mentioned in the text of an expression exactly if it is a component of a name that the
expression refers to. The truth values are words of the text, but no names. -/
theorem mentions_iff_component {text name : String} {e : Expr} (h : Expr.ofText text = .ok e)
    (hname : Assignment.isIdentifier name.toList = true) (htrue : name ≠ "true")
    (hfalse : name ≠ "false") :
    mentions text name = true ↔ ∃ x ∈ e.names, name ∈ components x := by
  obtain ⟨ts, hwritten, hphrase⟩ := Expr.ofText_eq_ok.mp h
  have hmentions : mentions text name = true ↔
      name.toList ∈ text.toList.splitOnP fun c => !isNameChar c := by
    simp [mentions]
  have hcomponents : ∀ s, name.toList ∈ s.toList.splitOn '.' ↔ name ∈ components s := by
    intro s
    rw [components, List.mem_map]
    constructor
    · exact fun hmem => ⟨_, hmem, String.ofList_toList⟩
    · rintro ⟨r, hmem, rfl⟩
      rwa [String.toList_ofList]
  rw [hmentions, hwritten.mem_runs hphrase.apart hname]
  constructor
  · rintro ⟨s, hs, hmem⟩
    rw [hcomponents] at hmem
    refine ⟨s, hphrase.mem_names.mpr ⟨hs, ?_, ?_⟩, hmem⟩
    · rintro rfl
      exact htrue (List.mem_singleton.mp hmem)
    · rintro rfl
      exact hfalse (List.mem_singleton.mp hmem)
  · rintro ⟨s, hs, hmem⟩
    exact ⟨s, (hphrase.mem_names.mp hs).1, (hcomponents s).mpr hmem⟩

/-- A clock of a process is mentioned by its own name. -/
theorem mentions_iff_component_clock :
    let e : Expr := .binary (.compare .le) (.var "S.t") (.var "n")
    Expr.ofText "S.t <= n" = .ok e ∧ Assignment.isIdentifier "t".toList = true ∧ "t" ≠ "true" ∧
      "t" ≠ "false" ∧ (mentions "S.t <= n" "t" = true ↔ ∃ x ∈ e.names, "t" ∈ components x) := by
  intro e
  have hclock : Token.Spells (.name "S.t") ['S', '.', 't'] := .name rfl (by decide)
  have hbound : Token.Spells (.name "n") ['n'] := .name rfl rfl
  have hle : Token.Spells (.compare .le) ['<', '='] := .symbol rfl
  have hwritten : Token.Written [.name "S.t", .compare .le, .name "n"]
      ['S', '.', 't', ' ', '<', '=', ' ', 'n'] :=
    .token hclock (by simp; decide) <| .blank rfl <| .token hle (by simp; decide) <|
      .blank rfl <| .of_spells hbound
  have hread : Expr.ofText "S.t <= n" = .ok e :=
    Expr.ofText_eq_ok.mpr ⟨_, hwritten, Expr.derives_of_ofTokens rfl⟩
  have hname : Assignment.isIdentifier "t".toList = true := by decide
  exact ⟨hread, hname, by decide, by decide,
    mentions_iff_component hread hname (by decide) (by decide)⟩

end TimedMutation
