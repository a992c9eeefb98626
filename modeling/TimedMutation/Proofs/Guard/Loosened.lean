import TimedMutation.Proofs.Expr.Depth
import TimedMutation.Proofs.Expr.Swap
import TimedMutation.Proofs.Guard.Tokens

/-! Relations with one added to the right side. What is written behind a relation belongs to its right
side, unless the whole relation stands in parentheses. -/

namespace TimedMutation

namespace Expr

variable {p : Phrase} {ts front back : List Token} {e left right : Expr} {op op' : Comparison}

/-- A comparison that a phrase is stands between its sides, or the phrase is in parentheses. -/
theorem Derives.sides (h : Derives p ts (.binary (.compare op) left right)) :
    (∃ front back, ts = front ++ .compare op :: back ∧ Derives (.chain .comparison) front left ∧
        Derives (.chain .sum) back right) ∨
      ∃ inner, ts = .openParen :: (inner ++ [.closeParen]) ∧
        Derives (.chain .or) inner (.binary (.compare op) left right) := by
  generalize htree : Expr.binary (.compare op) left right = tree at h
  induction h with
  | operand _ ih | comparison _ _ ih | unsigned _ ih => exact ih htree
  | operation hleft hop hright =>
    cases htree
    cases hop
    exact .inl ⟨_, _, rfl, hleft, hright⟩
  | not | minus | bang | number | true | false | var => cases htree
  | @parens inner tree hphrase =>
    subst htree
    exact .inr ⟨inner, rfl, hphrase⟩

/-- A comparison is an expression if no `!` is in front of it. -/
theorem Derives.of_comparison (h : Derives (.chain .comparison) ts e) (hhead : ts.head? ≠ some .bang) :
    Derives (.chain .or) ts e :=
  .operand (l := .or) (.operand (l := .and) (.comparison hhead h))

theorem Derives.plus_number (h : Derives (.chain .sum) ts e) (x : Float) :
    Derives (.chain .sum) (ts ++ [.plus, .number x]) (.binary .add e (.number x)) :=
  .operation h .plus (.operand (l := .product) (.unsigned (.number x)))

/-- A number that is added behind the only comparison of a phrase is added to its right side if the
comparison stands outside parentheses, and to all of it otherwise. -/
theorem Derives.add_number
    (h : Derives (.chain .or) (front ++ .compare op' :: back) (.binary (.compare op) left right))
    (hbang : .bang ∉ front) (hfront : ∀ op, .compare op ∉ front) (hback : ∀ op, .compare op ∉ back)
    (x : Float) :
    Derives (.chain .or) (front ++ .compare op' :: back ++ [.plus, .number x])
      (if Token.depth front = 0 then .binary (.compare op) left (.binary .add right (.number x))
        else .binary .add (.binary (.compare op) left right) (.number x)) := by
  rcases h.sides with ⟨front', back', hsplit, hleft, hright⟩ | ⟨inner, hsplit, hinner⟩
  · rcases places_of_eq hsplit with ⟨rfl, hop, rfl⟩ | ⟨mid, -, rfl⟩ | ⟨mid, rfl, -⟩
    · cases hop
      have hphrase := Derives.operation hleft (.compare op) (hright.plus_number x)
      rw [if_pos hleft.depth_eq, List.append_assoc, List.cons_append]
      refine hphrase.of_comparison fun hhead => hbang ?_
      rw [List.head?_append_of_ne_nil _ hleft.ne_nil] at hhead
      exact List.mem_of_mem_head? hhead
    · exact absurd (by simp) (hback op)
    · exact absurd (by simp) (hfront op)
  · have hnested : Token.depth front ≠ 0 := by
      obtain ⟨rest, rfl, hrest⟩ := exists_front hsplit (by simp)
      rcases places_of_eq hrest with ⟨-, hclose, -⟩ | ⟨mid, rfl, -⟩ | ⟨mid, -, hnil⟩
      · cases hclose
      · have hdepth := hinner.depth_front rfl
        simp only [Token.depth_cons, Token.nesting]
        omega
      · simp at hnil
    rw [if_neg hnested, hsplit]
    have hgroup : Derives (.chain .sum) (.openParen :: (inner ++ [.closeParen])) _ :=
      .operand (l := .sum) (.operand (l := .product) (.unsigned (.parens hinner)))
    exact (Derives.operand (l := .comparison) (hgroup.plus_number x)).of_comparison (by simp)

end Expr

namespace Relation

/-- Whether the comparison of a relation stands outside parentheses. -/
def isOuter (r : Relation) : Bool := r.left.toList.foldl Text.depthAfter 0 == 0

/-- The relation with one added to the right side. -/
def loosened (r : Relation) : Relation := r.withRight (r.right ++ " + 1")

variable {text : String} {r : Relation}

theorem render_loosened (h : ofText text = .ok r) : r.loosened.render = text ++ " + 1" := by
  rw [← render_of_ofText h]
  simp [render, loosened, withRight, String.append_assoc]

end Relation

theorem Token.written_plus_one : Written [plus, number 1.0] " + 1".toList := by
  have hvalue : Decimal.Numeral.toFloat ⟨Decimal.digitsValue ['1'], 0⟩ = 1.0 := rfl
  have hone : Spells (number 1.0) ['1'] := hvalue ▸ .whole (by simp) (by simp; decide)
  have hnumber : Written [number 1.0] [' ', '1'] := .blank rfl (.of_spells hone)
  exact .blank rfl (.token (.symbol rfl : Spells plus ['+']) (fun _ _ => rfl) hnumber)

/-- Where a relation is read as a comparison, the loosened one is read with one added to its right
side, or, if the relation stands in parentheses, to its truth value. -/
theorem Expr.ofText_loosened {text : String} {r : Relation} {op : Comparison} {left right : Expr}
    (h : ofText text = .ok (.binary (.compare op) left right)) (hr : Relation.ofText text = .ok r) :
    ofText r.loosened.render =
      .ok (if r.isOuter then .binary (.compare op) left (.binary .add right (.number 1.0))
        else .binary .add (.binary (.compare op) left right) (.number 1.0)) := by
  obtain ⟨ts, hwritten, hphrase⟩ := ofText_eq_ok.mp h
  obtain ⟨hleft, hright⟩ := Relation.sides_of_ofText hr
  obtain ⟨front, back, rfl, hfront, hback⟩ := hwritten.sides hr
  obtain ⟨hbang, hfront'⟩ := hfront.not_relation hleft
  obtain ⟨-, hback'⟩ := hback.not_relation hright
  have houter : r.isOuter = decide (Token.depth front = 0) := by
    rw [Relation.isOuter, hfront.foldl_depthAfter, Int.zero_add]
    rfl
  have hmore := hphrase.add_number hbang hfront' hback' 1.0
  refine ofText_eq_ok.mpr ⟨_, ?_, by simpa only [houter, decide_eq_true_eq] using hmore⟩
  rw [Relation.render_loosened hr, String.toList_append]
  refine hwritten.append Token.written_plus_one fun t _ c hc => ?_
  cases hc
  exact t.joins_blank rfl

end TimedMutation
