import TimedMutation.Proofs.Bindings
import TimedMutation.Proofs.Expr.Spacing
import TimedMutation.Proofs.Text.Cut
import TimedMutation.Proofs.Update

/-! Assigning a value to a name in an update: what is written there, and what the update does after
that. The first assignment to a name is replaced, but the last one counts. -/

namespace TimedMutation

/-! ### The value that is written -/

theorem Token.Spells.equals_not_mem {t : Token} {w : List Char} (h : Spells t w)
    (ht : t.starts = true) : '=' ∉ w := by
  refine h.not_mem (by decide) (by decide) ?_
  cases t with
  | number | name => simp [mark]
  | openParen | minus | bang => decide
  | _ => cases ht

namespace Expr

variable {text : String} {e : Expr}

/-- The text of an expression has something in it, and does not start with an equals sign. -/
theorem start_of_ofText (h : ofText text = .ok e) :
    (text.toList.isEmpty || text.toList.head? == some '=') = false := by
  obtain ⟨ts, hwritten, hphrase⟩ := ofText_eq_ok.mp h
  have hstarts := hphrase.starts
  have hne := hphrase.ne_nil
  generalize text.toList = cs at hwritten
  cases hwritten with
  | nil => exact absurd rfl hne
  | @blank ts c cs hc _ =>
    have hequals : c ≠ '=' := by
      rintro rfl
      cases hc
    simpa using hequals
  | @token t w ts cs hw _ _ =>
    obtain ⟨c, tail, rfl⟩ := List.exists_cons_of_ne_nil hw.ne_nil
    have hmem := hw.equals_not_mem (hstarts t rfl)
    have hequals : c ≠ '=' := fun hc => hmem (by simp [hc])
    simpa using hequals

/-- White space around the text of an expression is not part of it. -/
theorem ofText_trim (h : ofText text = .ok e) :
    ofText (String.ofList (Text.trim text.toList)) = .ok e := by
  obtain ⟨ts, hwritten, hphrase⟩ := ofText_eq_ok.mp h
  exact ofText_eq_ok.mpr ⟨ts, by simpa using hwritten.trim, hphrase⟩

end Expr

theorem Assignment.bare_of_isIdentifier {cs : List Char} (h : isIdentifier cs = true) :
    Text.Bare cs := by
  have hne : cs ≠ [] := by
    rintro rfl
    cases h
  exact Text.bare_of_no_blank hne fun c hc => isBlank_of_isNameChar (isNameChar_of_isIdentifier h hc)

/-- An expression is assigned to an identifier by what is written for it. -/
theorem Assignment.ofText_assigned {name value : String} {e : Expr}
    (hname : isIdentifier name.toList = true) (hvalue : Expr.ofText value = .ok e) :
    ofText (name ++ " = " ++ value) =
      .ok ⟨name ++ " = " ++ value, name, String.ofList (Text.trim value.toList), e⟩ := by
  have hequals : '=' ∉ name.toList := fun hmem =>
    absurd (isNameChar_of_isIdentifier hname hmem) (by decide)
  have htext : (name ++ " = " ++ value).toList =
      (name.toList ++ [' ']) ++ '=' :: ' ' :: value.toList := by
    simp
  have hcut : Text.cutAt? ['='] (name ++ " = " ++ value).toList =
      some (name.toList ++ [' '], ' ' :: value.toList) := by
    rw [htext, Text.cutAt?_append (by simp [hequals])]
  -- The space before the equals sign keeps a colon in the name from being taken for a part of it.
  have hcolon : Text.beforeEnd? [':'] (name.toList ++ [' ']) = none := by
    rw [Option.eq_none_iff_forall_ne_some]
    intro before hbefore
    have hlast := congrArg List.getLast? (Text.beforeEnd?_eq_some.mp hbefore)
    simp at hlast
  refine ofText_of_cut hcut ?_ hname ?_ (Expr.start_of_ofText (Expr.ofText_trim hvalue))
    (Expr.ofText_trim hvalue)
  · rw [hcolon]
    exact (bare_of_isIdentifier hname).trim_concat rfl
  · rw [Text.trim_cons_of_blank rfl, String.toList_ofList]

namespace Update

variable {u : Update} {name value : String} {v after : Valuation}

/-- The first assignment that passes a test, and what is before and after it. -/
theorem exists_of_findIdx? {assignments : List Assignment} {p : Assignment → Bool} {k : ℕ}
    (h : assignments.findIdx? p = some k) :
    ∃ before a rest, assignments = before ++ a :: rest ∧ before.length = k ∧ p a = true ∧
      ∀ b ∈ before, p b = false := by
  obtain ⟨hlt, hp, hbefore⟩ := List.findIdx?_eq_some_iff_getElem.mp h
  refine ⟨assignments.take k, assignments[k], assignments.drop (k + 1), ?_, by simp [hlt.le], hp, ?_⟩
  · rw [← List.drop_eq_getElem_cons hlt, List.take_append_drop]
  · intro b hb
    obtain ⟨j, hj, rfl⟩ := List.mem_take_iff_getElem.mp hb
    simpa using hbefore j (by omega)

/-- What is assigned to a name stands at the end, or in the place of the first assignment to it. -/
theorem assign_cases (u : Update) {a : Assignment}
    (ha : Assignment.ofText (name ++ " = " ++ value) = .ok a) :
    ((∀ b ∈ u.assignments, b.target ≠ name) ∧
      u.assign name value = .ok ⟨u.assignments ++ [a]⟩) ∨
    ∃ before old rest, u.assignments = before ++ old :: rest ∧ old.target = name ∧
      (∀ b ∈ before, b.target ≠ name) ∧ u.assign name value = .ok ⟨before ++ a :: rest⟩ := by
  cases hposition : u.position? name with
  | none =>
    have hall := List.findIdx?_eq_none_iff.mp hposition
    exact .inl ⟨by simpa using hall, by simp only [assign, ha, bind_ok, hposition]; rfl⟩
  | some k =>
    obtain ⟨before, old, rest, hsplit, rfl, htarget, hbefore⟩ := exists_of_findIdx? hposition
    refine .inr ⟨before, old, rest, hsplit, by simpa using htarget, by simpa using hbefore, ?_⟩
    have hset : u.assignments.set before.length a = before ++ a :: rest := by simp [hsplit]
    simp only [assign, ha, bind_ok, hposition, ← hset]
    rfl

theorem evaluate_append {before rest : List Assignment} {values : List (String × Float)} :
    (Update.mk (before ++ rest)).evaluate v = .ok values ↔
      ∃ first last, (Update.mk before).evaluate v = .ok first ∧
        (Update.mk rest).evaluate v = .ok last ∧ first ++ last = values := by
  simp only [evaluate, List.mapM_append, bind_eq_ok, pure_eq_ok]
  constructor
  · rintro ⟨first, hfirst, last, hlast, hjoin⟩
    exact ⟨first, last, hfirst, hlast, hjoin⟩
  · rintro ⟨first, last, hfirst, hlast, hjoin⟩
    exact ⟨first, hfirst, last, hlast, hjoin⟩

theorem evaluate_cons {a : Assignment} {rest : List Assignment} {values : List (String × Float)} :
    (Update.mk (a :: rest)).evaluate v = .ok values ↔
      ∃ y last, a.evaluate v = .ok y ∧ (Update.mk rest).evaluate v = .ok last ∧
        (a.target, y) :: last = values := by
  simp only [evaluate, List.mapM_cons, bind_eq_ok, pure_eq_ok]
  constructor
  · rintro ⟨_, ⟨y, hy, rfl⟩, last, hlast, hjoin⟩
    exact ⟨y, last, hy, hlast, hjoin⟩
  · rintro ⟨y, last, hy, hlast, hjoin⟩
    exact ⟨_, ⟨y, hy, rfl⟩, last, hlast, hjoin⟩

/-- The names that get values are the targets. -/
theorem map_fst_evaluate {values : List (String × Float)} (h : u.evaluate v = .ok values) :
    values.map (·.1) = u.assignments.map (·.target) := by
  have hall := forall₂_of_mapM h
  clear h
  generalize u.assignments = assignments at hall
  induction hall with
  | nil => rfl
  | cons hfirst _ ih =>
    obtain ⟨y, -, hvalue⟩ := bind_eq_ok.mp hfirst
    rw [List.map_cons, List.map_cons, ih, ← pure_eq_ok.mp hvalue]

theorem apply_eq_ok :
    u.apply v = .ok after ↔
      ∃ values, u.evaluate v = .ok values ∧
        values.foldl (fun v (name, x) => v.insert name x) v = after := by
  simp only [apply, bind_eq_ok, pure_eq_ok]

/-- An update with a value assigned to a name does what the update does, and gives the name that value
unless the update assigns to the name several times; then it does what the update does and no more. -/
theorem apply_assign (u : Update) {e : Expr} {x : Float}
    (hname : Assignment.isIdentifier name.toList = true) (hvalue : Expr.ofText value = .ok e)
    (hx : e.evalNumber v = .ok x) (hafter : u.apply v = .ok after) :
    ∃ mutated, u.assign name value = .ok mutated ∧
      mutated.apply v = .ok
        (if u.assignments.countP (fun a => a.target == name) ≤ 1 then after.insert name x
          else after) := by
  have ha := Assignment.ofText_assigned hname hvalue
  obtain ⟨values, hvalues, rfl⟩ := apply_eq_ok.mp hafter
  generalize hwritten : Assignment.mk _ name _ e = a at ha
  have htarget : a.target = name := by rw [← hwritten]
  have ha' : a.evaluate v = .ok x := by rw [← hwritten]; exact hx
  rcases assign_cases u ha with ⟨hother, hassign⟩ | ⟨before, old, rest, hu, hold, hbefore, hassign⟩
  · refine ⟨_, hassign, apply_eq_ok.mpr ⟨values ++ [(name, x)], ?_, ?_⟩⟩
    · exact evaluate_append.mpr ⟨values, _, hvalues,
        evaluate_cons.mpr ⟨x, [], ha', rfl, rfl⟩, by rw [htarget]⟩
    · have hnone : u.assignments.countP (fun a => a.target == name) = 0 := by
        simpa [List.countP_eq_zero] using hother
      rw [hnone, if_pos (by decide), List.foldl_append]
      rfl
  · obtain ⟨assignments⟩ := u
    obtain rfl : assignments = before ++ old :: rest := hu
    obtain ⟨first, _, hfirst, hlast, rfl⟩ := evaluate_append.mp hvalues
    obtain ⟨y, last, -, hrest, rfl⟩ := evaluate_cons.mp hlast
    refine ⟨_, hassign, apply_eq_ok.mpr ⟨first ++ (name, x) :: last, ?_, ?_⟩⟩
    · exact evaluate_append.mpr ⟨first, _, hfirst,
        evaluate_cons.mpr ⟨x, last, ha', hrest, by rw [htarget]⟩, rfl⟩
    · -- The replaced assignment counts if no assignment to the name follows it.
      have hcount : (before ++ old :: rest).countP (fun a => a.target == name) ≤ 1 ↔
          name ∉ last.map (·.1) := by
        have hnone : before.countP (fun a => a.target == name) = 0 := by
          simpa [List.countP_eq_zero] using hbefore
        rw [map_fst_evaluate hrest, List.countP_append, hnone, List.countP_cons, hold]
        simp [List.countP_eq_zero]
      rw [hold, Bindings.foldl_insert_replaced first last name y x v]
      simp only [hcount, ite_not]

/-- Where a name is assigned twice, to assign another value to it changes nothing. -/
theorem apply_assign_twice :
    let u : Update := ⟨[⟨"n=1", "n", "1", .number 1.0⟩, ⟨"n=2", "n", "2", .number 2.0⟩]⟩
    let v : Valuation := .ofList [("n", 0.0), ("t", 0.0)]
    Assignment.isIdentifier "n".toList = true ∧ Expr.ofText "0" = .ok (.number 0.0) ∧
      u.apply v = .ok (v.insert "n" 2.0) ∧
      ∃ mutated, u.assign "n" "0" = .ok mutated ∧ mutated.apply v = .ok (v.insert "n" 2.0) := by
  intro u v
  have hname : Assignment.isIdentifier "n".toList = true := rfl
  have hlast : (v.insert "n" 1.0).insert "n" 2.0 = v.insert "n" 2.0 := by
    refine Bindings.ext_get? fun x => ?_
    simp only [Bindings.get?_insert]
    split <;> rfl
  have hafter : u.apply v = .ok (v.insert "n" 2.0) := hlast ▸ rfl
  have hcount : ¬ u.assignments.countP (fun a => a.target == "n") ≤ 1 := by decide
  obtain ⟨mutated, hassign, happly⟩ := apply_assign u hname Expr.ofText_zero rfl hafter
  rw [if_neg hcount] at happly
  exact ⟨hname, Expr.ofText_zero, hafter, mutated, hassign, happly⟩

end Update
end TimedMutation
