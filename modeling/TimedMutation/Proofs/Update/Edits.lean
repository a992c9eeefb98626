import TimedMutation.Proofs.Update.RoundTrip

/-! Updates that are edited one assignment after another. Whatever is left out and assigned, what is
written for the update is read as it is. -/

namespace TimedMutation

/-- What an assignment does, apart from how it is written. -/
def Assignment.content (a : Assignment) : String × String × Expr := (a.target, a.value, a.expr)

namespace Update

/-- A change of one assignment. -/
inductive Edit
  | erase (index : ℕ)
  | assign (target value : String)

/-- The update after an edit, unless it has no assignment there or the new one is not read. -/
def edit (u : Update) : Edit → Option Update
  | .erase index => u.erase? index
  | .assign target value => (u.assign target value).toOption

def edits (u : Update) (es : List Edit) : Option Update := es.foldlM edit u

def contents (u : Update) : List (String × String × Expr) := u.assignments.map Assignment.content

/-- The texts of assignments and what the assignments do, as two lists that are edited by index,
each for itself. -/
structure Columns where
  texts : List String
  contents : List (String × String × Expr)

def columns (u : Update) : Columns := ⟨u.texts, u.contents⟩

namespace Columns

/-- The two lists after an edit, unless one of them has nothing where it is to change. -/
def edit (c : Columns) : Edit → Option Columns
  | .erase index =>
    if index < c.texts.length ∧ index < c.contents.length then
      some ⟨c.texts.eraseIdx index, c.contents.eraseIdx index⟩
    else none
  | .assign target value => do
    let text := target ++ " = " ++ value
    let a ← (Assignment.ofText text).toOption
    match c.contents.findIdx? fun content => content.1 == target with
    | none => some ⟨c.texts ++ [text], c.contents ++ [a.content]⟩
    | some index =>
      if index < c.texts.length ∧ index < c.contents.length then
        some ⟨c.texts.set index text, c.contents.set index a.content⟩
      else none

def edits (c : Columns) (es : List Edit) : Option Columns := es.foldlM edit c

end Columns

variable {u v : Update} {e : Edit} {es : List Edit} {text : String}

/-! ### One edit -/

theorem erase?_eq_some {k : ℕ} :
    u.erase? k = some v ↔ k < u.assignments.length ∧ u.erase k = v := by
  simp [erase?]

theorem Reads.edit (h : u.Reads) (he : u.edit e = some v) : v.Reads := by
  cases e with
  | erase k =>
    obtain ⟨-, rfl⟩ := erase?_eq_some.mp he
    exact h.erase k
  | assign name value => exact h.assign (toOption_eq_some.mp he)

/-- The place of a name is found by what the assignments do alone. -/
theorem findIdx?_contents (u : Update) (name : String) :
    (u.contents.findIdx? fun content => content.1 == name) = u.position? name := by
  simp [contents, position?, List.findIdx?_map, Function.comp_def, Assignment.content]

/-- The lists that are edited each for itself are those of the edited update. -/
theorem columns_edit (he : u.edit e = some v) : u.columns.edit e = some v.columns := by
  cases e with
  | erase k =>
    obtain ⟨hk, rfl⟩ := erase?_eq_some.mp he
    have hlengths : k < u.texts.length ∧ k < u.contents.length := by
      simpa [texts, contents] using hk
    rw [Columns.edit, columns, if_pos hlengths, columns, texts_erase]
    simp [contents, erase, List.eraseIdx_map]
  | assign name value =>
    obtain ⟨a, ha, hassign⟩ := bind_eq_ok.mp (toOption_eq_some.mp he)
    have htext : a.text = name ++ " = " ++ value := (Assignment.of_ofText ha).1
    simp only [Columns.edit, columns, findIdx?_contents, toOption_eq_some.mpr ha,
      Option.bind_eq_bind, Option.bind_some]
    split at hassign
    · rename_i k hposition
      cases pure_eq_ok.mp hassign
      obtain ⟨hk, -⟩ := List.findIdx?_eq_some_iff_getElem.mp hposition
      simp [hposition, hk, texts, contents, List.map_set, htext]
    · rename_i hposition
      cases pure_eq_ok.mp hassign
      simp [hposition, texts, contents, htext]

/-! ### Runs of edits -/

theorem edits_cons : u.edits (e :: es) = some v ↔ ∃ w, u.edit e = some w ∧ w.edits es = some v := by
  simp [edits, Option.bind_eq_some_iff]

theorem Reads.edits (h : u.Reads) (hes : u.edits es = some v) : v.Reads := by
  induction es generalizing u with
  | nil =>
    cases hes
    exact h
  | cons e es ih =>
    obtain ⟨w, he, hes⟩ := edits_cons.mp hes
    exact ih (h.edit he) hes

theorem columns_edits (hes : u.edits es = some v) : u.columns.edits es = some v.columns := by
  induction es generalizing u with
  | nil =>
    cases hes
    rfl
  | cons e es ih =>
    obtain ⟨w, he, hes⟩ := edits_cons.mp hes
    rw [Columns.edits, List.foldlM_cons, columns_edit he]
    exact ih hes

/-- An update that was read and then edited is written as it is: when its text is read, the same is
assigned to the same names. Its texts and what its assignments do keep in step. -/
theorem ofText_render_edits (h : ofText text = .ok u) (hes : u.edits es = some v) :
    (∃ again, ofText v.render = .ok again ∧ again.contents = v.contents) ∧
      u.columns.edits es = some v.columns ∧
      List.Forall₂ (fun text content => ∃ a, Assignment.ofText text = .ok a ∧ a.content = content)
        v.texts v.contents := by
  have hreads : v.Reads := (reads_of_ofText h).edits hes
  refine ⟨⟨_, ofText_render hreads, ?_⟩, columns_edits hes, ?_⟩
  · rw [contents, List.map_map]
    rfl
  · rw [texts, contents, List.forall₂_map_left_iff, List.forall₂_map_right_iff, List.forall₂_same]
    exact fun a ha => ⟨a, hreads a ha, rfl⟩

/-- The white space that is written after a value goes when the text is read again. -/
theorem ofText_render_edits_blank :
    let u : Update := ⟨[⟨"n=m", "n", "m", .var "m"⟩]⟩
    let v : Update := ⟨[⟨"t = n ", "t", "n", .var "n"⟩]⟩
    let es : List Edit := [.assign "t" "n ", .erase 0]
    ofText "n=m" = .ok u ∧ u.edits es = some v ∧
      (∃ again, ofText v.render = .ok again ∧ again.contents = v.contents) ∧
      u.columns.edits es = some v.columns ∧
      List.Forall₂ (fun text content => ∃ a, Assignment.ofText text = .ok a ∧ a.content = content)
        v.texts v.contents := by
  intro u v es
  have hm : Token.Written [.name "m"] ['m'] := .of_spells (.name rfl rfl)
  have hn : Token.Written [.name "n"] ['n', ' '] :=
    .token (.name rfl rfl) (by simp; decide) (.blank rfl .nil)
  have hfirst : Assignment.ofText "n=m" = .ok ⟨"n=m", "n", "m", .var "m"⟩ :=
    Assignment.ofText_of_cut rfl rfl (by decide) rfl rfl
      (Expr.ofText_eq_ok.mpr ⟨_, hm, Expr.derives_of_ofTokens rfl⟩)
  have hread : ofText "n=m" = .ok u := by
    refine ofText_of_parts rfl (by decide +kernel : _ = ["n=m"]) ?_
    simp only [List.mapM_cons, hfirst]
    rfl
  have hsecond : Assignment.ofText ("t" ++ " = " ++ "n ") = .ok ⟨"t = n ", "t", "n", .var "n"⟩ :=
    Assignment.ofText_assigned (by decide)
      (Expr.ofText_eq_ok.mpr ⟨_, hn, Expr.derives_of_ofTokens rfl⟩)
  have hes : u.edits es = some v := by
    refine edits_cons.mpr ⟨⟨u.assignments ++ v.assignments⟩, ?_, rfl⟩
    simp only [edit, assign, hsecond]
    rfl
  exact ⟨hread, hes, ofText_render_edits hread hes⟩

end Update

end TimedMutation
