import TimedMutation.Proofs.Expr.Eval

/-! What an evaluation depends on: the values of the names in the expression, and on nothing else. -/

namespace TimedMutation.Expr

variable {v w : Valuation}

/-- Valuations that agree on the names in an expression give it the same value, or the same error. -/
theorem eval_congr {e : Expr} (h : ∀ name, var name ∈ e.parts → v.get? name = w.get? name) :
    e.eval v = e.eval w := by
  induction e with
  | number | bool => rfl
  | var name => simp only [eval, h name (mem_parts_self _)]
  | unary op e ih =>
    have he := ih fun name hname => h name (List.mem_cons_of_mem _ hname)
    cases op <;> simp only [eval, he]
  | binary op l r ihl ihr =>
    have hl := ihl fun name hname => h name (by simp [parts, hname])
    have hr := ihr fun name hname => h name (by simp [parts, hname])
    cases op <;> simp only [eval, hl, hr]

/-- The value of an expression depends on the names it refers to and on nothing else, also where it has
none. If it has none, one of these names is without a value and is reported, or a `/` or `%` in the
expression has a zero on its right and is reported. With values for all the names, the second is left. -/
theorem eval_depends_on_names (e : Expr) :
    (∀ v w : Valuation, (∀ name ∈ e.names, v.get? name = w.get? name) → e.eval v = e.eval w) ∧
      ∀ (v : Valuation) (why : ExprError), e.eval v = .error why →
        (∃ name ∈ e.names, v.get? name = none ∧ why = .unknownVariable name) ∨
          ∃ op l r y, binary op l r ∈ e.parts ∧ (op = .div ∨ op = .rem) ∧ r.eval v = .ok y ∧
            (y.asNumber == 0.0) = true ∧ why = .divisionByZero (binary op l r) := by
  refine ⟨fun v w h => eval_congr fun name hname => h name (mem_names.mpr hname), ?_⟩
  intro v why hwhy
  cases fails_of_eval hwhy with
  | unbound hpart hunbound => exact .inl ⟨_, mem_names.mpr hpart, hunbound, rfl⟩
  | division hpart hdivides hright hzero =>
    exact .inr ⟨_, _, _, _, hpart, hdivides, hright, hzero, rfl⟩

/-- Behind an `&&` that is false already, nothing is missed and nothing is divided by zero. Behind one
that is not, the left operand of the division comes first. -/
theorem eval_of_guarded_quotient :
    let quotient : Expr := .binary .div (.var "b") (.var "c")
    let e : Expr := .binary .and (.var "a") quotient
    let closed : Valuation := .ofList [("a", 0.0)]
    let unset : Valuation := .ofList [("a", 1.0), ("c", 0.0)]
    let full : Valuation := .ofList [("a", 1.0), ("b", 1.0), ("c", 0.0)]
    e.names = ["a", "b", "c"] ∧
      (e.eval closed = .ok (.bool false) ∧ e.eval closed = e.eval (closed.insert "d" 2.0)) ∧
      (e.eval unset = .error (.unknownVariable "b") ∧
        ((∃ name ∈ e.names, unset.get? name = none ∧
            ExprError.unknownVariable "b" = .unknownVariable name) ∨
          ∃ op l r y, binary op l r ∈ e.parts ∧ (op = .div ∨ op = .rem) ∧ r.eval unset = .ok y ∧
            (y.asNumber == 0.0) = true ∧
            ExprError.unknownVariable "b" = .divisionByZero (binary op l r))) ∧
      e.eval full = .error (.divisionByZero quotient) ∧
        ((∃ name ∈ e.names, full.get? name = none ∧
            ExprError.divisionByZero quotient = .unknownVariable name) ∨
          ∃ op l r y, binary op l r ∈ e.parts ∧ (op = .div ∨ op = .rem) ∧ r.eval full = .ok y ∧
            (y.asNumber == 0.0) = true ∧
            ExprError.divisionByZero quotient = .divisionByZero (binary op l r)) := by
  intro quotient e closed unset full
  obtain ⟨hsame, hfails⟩ := eval_depends_on_names e
  have hagree : ∀ name ∈ e.names, closed.get? name = (closed.insert "d" 2.0).get? name := by decide
  have hunset : e.eval unset = .error (.unknownVariable "b") := rfl
  have hzero : e.eval full = .error (.divisionByZero quotient) := rfl
  exact ⟨rfl, ⟨rfl, hsame closed _ hagree⟩, ⟨hunset, hfails unset _ hunset⟩, hzero,
    hfails full _ hzero⟩

end TimedMutation.Expr
