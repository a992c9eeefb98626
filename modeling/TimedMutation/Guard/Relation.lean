import TimedMutation.Expr.Error

/-! Simple relations of guards and invariants, with the text of their two sides kept as written. -/

namespace TimedMutation

/-- Two sides and the comparison between them. White space stays with the sides. -/
structure Relation where
  left : String
  op : Comparison
  right : String
  deriving DecidableEq

namespace Relation

def isRelationChar (c : Char) : Bool := c == '<' || c == '>' || c == '=' || c == '!'

/-- The longest comparison that starts a text, and what follows it. -/
def operatorAt? : List Char → Option (Comparison × List Char)
  | '<' :: '=' :: cs => some (.le, cs)
  | '<' :: cs => some (.lt, cs)
  | '>' :: '=' :: cs => some (.ge, cs)
  | '>' :: cs => some (.gt, cs)
  | '=' :: '=' :: cs => some (.eq, cs)
  | '!' :: '=' :: cs => some (.ne, cs)
  | _ => none

theorem eq_of_operatorAt? {cs rest : List Char} {op : Comparison}
    (h : operatorAt? cs = some (op, rest)) : cs = op.symbol.toList ++ rest := by
  unfold operatorAt? at h
  split at h <;> simp at h <;> obtain ⟨rfl, rfl⟩ := h <;> simp [Comparison.symbol]

/-- The relation that a text writes: two sides that are not blank, without a character of a
comparison in either, and one comparison between them. -/
def ofText (text : String) : Except ExprError Relation :=
  let refuse (why : RelationFault) := Except.error (.malformedRelation text why)
  let cs := text.toList
  let left := cs.takeWhile fun c => !isRelationChar c
  match cs.dropWhile fun c => !isRelationChar c with
  | [] => refuse .noOperator
  | rest =>
    match operatorAt? rest with
    | none => refuse .unknownOperator
    | some (op, right) =>
      if Text.allBlank left || Text.allBlank right then refuse .emptySide
      else if right.any isRelationChar then refuse .secondOperator
      else .ok ⟨String.ofList left, op, String.ofList right⟩

def render (r : Relation) : String := r.left ++ r.op.symbol ++ r.right

def withOp (r : Relation) (op : Comparison) : Relation := { r with op }

def withRight (r : Relation) (right : String) : Relation := { r with right }

end Relation

end TimedMutation
