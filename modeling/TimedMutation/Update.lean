import TimedMutation.Expr.Eval
import TimedMutation.Text.TopLevel

/-! Updates: lists of assignments that keep the text they were written with. -/

namespace TimedMutation

/-- One assignment `target = value` or `target := value`. -/
structure Assignment where
  /-- The assignment as written. -/
  text : String
  target : String
  /-- The right-hand side without white space around it. -/
  value : String
  expr : Expr

namespace Assignment

/-- Whether a text is a name start and name characters after it. -/
def isIdentifier : List Char → Bool
  | [] => false
  | c :: cs => isNameStart c && cs.all isNameChar

/-- The assignment that a text writes, split at its first equals sign; a colon right before the
sign belongs to it. -/
def ofText (text : String) : Except ExprError Assignment :=
  let refuse (why : AssignmentFault) := Except.error (.malformedUpdate text why)
  match Text.cutAt? ['='] text.toList with
  | none => refuse .noEquals
  | some (before, after) =>
    let target := Text.trim ((Text.beforeEnd? [':'] before).getD before)
    let value := Text.trim after
    if !isIdentifier target then refuse .badTarget
    else if value.isEmpty || value.head? == some '=' then refuse .noValue
    else do
      let expr ← Expr.ofText (String.ofList value)
      return ⟨text, String.ofList target, String.ofList value, expr⟩

def evaluate (a : Assignment) (v : Valuation) : Except ExprError Float := a.expr.evalNumber v

/-- Whether the right-hand side is the constant zero. -/
def isReset (a : Assignment) : Bool :=
  match a.expr with
  | .number x => x == 0.0
  | _ => false

end Assignment

/-- Assignments that happen at once. -/
structure Update where
  assignments : List Assignment

namespace Update

def empty : Update := ⟨[]⟩

/-- The update that a text writes. Nothing and the literal `1` stand for no assignment; otherwise
commas outside parentheses separate the assignments. -/
def ofText (text : String) : Except ExprError Update :=
  let cs := Text.trim text.toList
  if cs.isEmpty || cs == ['1'] then .ok empty
  else do
    let parts := (Text.splitTopLevel [','] cs).map fun part => String.ofList (Text.trim part)
    return ⟨← parts.mapM Assignment.ofText⟩

def isEmpty (u : Update) : Bool := u.assignments.isEmpty

def render (u : Update) : String := String.intercalate ", " (u.assignments.map (·.text))

/-- The index of the first assignment to `target`. -/
def position? (u : Update) (target : String) : Option Nat :=
  u.assignments.findIdx? fun a => a.target == target

/-- Whether an assignment sets `target` to the constant zero. -/
def resets (u : Update) (target : String) : Bool :=
  u.assignments.any fun a => a.target == target && a.isReset

/-- The update without the assignment at an index. -/
def erase (u : Update) (index : Nat) : Update := ⟨u.assignments.eraseIdx index⟩

/-- The update without the assignment at an index that it has. -/
def erase? (u : Update) (index : Nat) : Option Update :=
  if index < u.assignments.length then some (u.erase index) else none

/-- The update with `target = value` in the place of its first assignment to `target`, or at its
end if it has none. -/
def assign (u : Update) (target value : String) : Except ExprError Update := do
  let a ← Assignment.ofText (target ++ " = " ++ value)
  match u.position? target with
  | some index => return ⟨u.assignments.set index a⟩
  | none => return ⟨u.assignments ++ [a]⟩

/-- The values of all right-hand sides under the same valuation. -/
def evaluate (u : Update) (v : Valuation) : Except ExprError (List (String × Float)) :=
  u.assignments.mapM fun a => do return (a.target, ← a.evaluate v)

/-- The valuation after the update: every right-hand side has its value from before. -/
def apply (u : Update) (v : Valuation) : Except ExprError Valuation := do
  return (← u.evaluate v).foldl (fun v (target, x) => v.insert target x) v

end Update

end TimedMutation
