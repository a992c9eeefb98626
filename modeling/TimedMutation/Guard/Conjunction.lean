import TimedMutation.Expr.Error
import TimedMutation.Text.TopLevel

/-! Guards and invariants as the parts between their top-level `&&`. -/

namespace TimedMutation

/-- The parts of a guard or an invariant, each without white space around it. -/
structure Conjunction where
  parts : List String
  deriving DecidableEq

namespace Conjunction

/-- The parts of a text. A blank text has none, and in any other none may be blank. -/
def ofText (text : String) : Except ExprError Conjunction :=
  let cs := text.toList
  if Text.allBlank cs then .ok ⟨[]⟩
  else
    let parts := (Text.splitTopLevel ['&', '&'] cs).map Text.trim
    if parts.any List.isEmpty then .error (.malformedExpression text .emptyConjunct)
    else .ok ⟨parts.map String.ofList⟩

def render (c : Conjunction) : String := String.intercalate " && " c.parts

/-- The conjunction with another part at an index that it has. -/
def withPart? (c : Conjunction) (index : Nat) (part : String) : Option Conjunction :=
  if index < c.parts.length then some ⟨c.parts.set index part⟩ else none

end Conjunction

end TimedMutation
