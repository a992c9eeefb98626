import TimedMutation.Expr.Eval
import TimedMutation.Proofs.Outcome

/-! Why an evaluation fails: a name has no value, or a division has a zero on its right. -/

namespace TimedMutation.Expr

/-- The expressions that stand in an expression, with the expression itself. -/
def parts : Expr → List Expr
  | number x => [number x]
  | bool b => [bool b]
  | var name => [var name]
  | unary op e => unary op e :: e.parts
  | binary op l r => binary op l r :: (l.parts ++ r.parts)

theorem mem_parts_self (e : Expr) : e ∈ e.parts := by cases e <;> simp [parts]

theorem parts_subset {e whole : Expr} (h : e ∈ whole.parts) : e.parts ⊆ whole.parts := by
  induction whole with
  | number | bool | var =>
    cases List.mem_singleton.mp h
    exact List.Subset.refl _
  | unary op inner ih =>
    rcases List.mem_cons.mp h with rfl | h
    · exact List.Subset.refl _
    · exact List.subset_cons_of_subset _ (ih h)
  | binary op l r ihl ihr =>
    rcases List.mem_cons.mp h with rfl | h
    · exact List.Subset.refl _
    · rcases List.mem_append.mp h with h | h
      · exact List.subset_cons_of_subset _ (List.subset_append_of_subset_left _ (ihl h))
      · exact List.subset_cons_of_subset _ (List.subset_append_of_subset_right _ (ihr h))

theorem mem_collectNames {name : String} {seen : List String} {e : Expr} :
    name ∈ e.collectNames seen ↔ name ∈ seen ∨ var name ∈ e.parts := by
  induction e generalizing seen with
  | number | bool => simp [collectNames, parts]
  | var n =>
    simp only [collectNames, parts, List.mem_singleton, var.injEq]
    split
    · rename_i hseen
      exact ⟨.inl, fun h => h.elim id fun heq => heq ▸ hseen⟩
    · simp
  | unary op e ih => simp [collectNames, parts, ih]
  | binary op l r ihl ihr => simp [collectNames, parts, ihl, ihr, or_assoc]

/-- An expression refers to the names that stand in it. -/
theorem mem_names {name : String} {e : Expr} : name ∈ e.names ↔ var name ∈ e.parts := by
  simp [names, mem_collectNames]

/-- For what an expression cannot be evaluated. -/
inductive Fails (v : Valuation) (e : Expr) : ExprError → Prop
  | unbound {name : String} (part : var name ∈ e.parts) (unbound : v.get? name = none) :
      Fails v e (.unknownVariable name)
  | division {op : BinaryOp} {l r : Expr} {y : Value} (part : binary op l r ∈ e.parts)
      (divides : op = .div ∨ op = .rem) (right : r.eval v = .ok y)
      (zero : (y.asNumber == 0.0) = true) : Fails v e (.divisionByZero (binary op l r))

variable {v : Valuation} {why : ExprError}

/-- The evaluation of an expression fails for what fails in a part of it. -/
theorem Fails.of_part {e whole : Expr} (he : e ∈ whole.parts) (h : Fails v e why) :
    Fails v whole why := by
  cases h with
  | unbound hpart hunbound => exact .unbound (parts_subset he hpart) hunbound
  | division hpart hdivides hright hzero =>
    exact .division (parts_subset he hpart) hdivides hright hzero

theorem arithmetic_eq_error {whole : Expr} {op : BinaryOp} {x y : Float}
    (h : arithmetic whole op x y = .error why) :
    (op = .div ∨ op = .rem) ∧ (y == 0.0) = true ∧ .divisionByZero whole = why := by
  cases op with
  | div =>
    simp only [arithmetic] at h
    split at h
    · rename_i hzero
      exact ⟨.inl rfl, hzero, by simpa using h⟩
    · cases h
  | rem =>
    simp only [arithmetic] at h
    split at h
    · rename_i hzero
      exact ⟨.inr rfl, hzero, by simpa using h⟩
    · cases h
  | add | sub | mul | compare | and | or => cases h

/-- An evaluation that fails does so at a name or a division that stands in the expression. -/
theorem fails_of_eval {e : Expr} (h : e.eval v = .error why) : Fails v e why := by
  have hleft : ∀ {op l r}, l ∈ (binary op l r).parts := by simp [parts, mem_parts_self]
  have hright : ∀ {op l r}, r ∈ (binary op l r).parts := by simp [parts, mem_parts_self]
  fun_induction eval v e with
  | case1 | case2 | case3 => cases h
  | case4 name hnone =>
    cases h
    exact .unbound (mem_parts_self _) hnone
  | case5 e ih | case6 e ih =>
    exact (ih (bind_pure_eq_error.mp h)).of_part (by simp [parts, mem_parts_self])
  | case7 l r ihl ihr =>
    rcases bind_eq_error.mp h with h | ⟨_, -, h⟩
    · exact (ihl h).of_part hleft
    · -- Where the left side decides, nothing else is evaluated and nothing fails.
      split at h
      · exact (ihr (bind_pure_eq_error.mp h)).of_part hright
      · exact absurd h pure_ne_error
  | case8 l r ihl ihr =>
    rcases bind_eq_error.mp h with h | ⟨_, -, h⟩
    · exact (ihl h).of_part hleft
    · split at h
      · exact absurd h pure_ne_error
      · exact (ihr (bind_pure_eq_error.mp h)).of_part hright
  | case9 op l r hand hor ihl ihr =>
    rcases bind_eq_error.mp h with h | ⟨_, -, h⟩
    · exact (ihl h).of_part hleft
    · rcases bind_eq_error.mp h with h | ⟨y, hy, h⟩
      · exact (ihr h).of_part hright
      · obtain ⟨hdivides, hzero, rfl⟩ := arithmetic_eq_error h
        exact .division (mem_parts_self _) hdivides hy hzero

end TimedMutation.Expr
