import TimedMutation.Expr.Parser
import TimedMutation.Bindings

/-! The value of an expression under a valuation. -/

namespace TimedMutation

/-- The values of names. -/
abbrev Valuation := Bindings Float

inductive Value where
  | number (x : Float)
  | bool (b : Bool)

namespace Value

/-- A number counts as true unless it is zero. -/
def asBool : Value → Bool
  | bool b => b
  | number x => x != 0.0

/-- Truth counts as one and falsehood as zero. -/
def asNumber : Value → Float
  | number x => x
  | bool b => if b then 1.0 else 0.0

end Value

namespace Expr

/-- The value of a binary operation other than `&&` and `||` on two numbers. -/
def arithmetic (whole : Expr) (op : BinaryOp) (x y : Float) : Except ExprError Value :=
  match op with
  | .add => .ok (.number (x + y))
  | .sub => .ok (.number (x - y))
  | .mul => .ok (.number (x * y))
  | .div => if y == 0.0 then .error (.divisionByZero whole) else .ok (.number (x / y))
  | .rem =>
    if y == 0.0 then .error (.divisionByZero whole)
    else .ok (.number (Decimal.remainder x y))
  | .compare c => .ok (.bool (c.holds x y))
  | .and => .ok (.bool (x != 0.0 && y != 0.0))
  | .or => .ok (.bool (x != 0.0 || y != 0.0))

/-- The value of an expression. The right side of `&&` is evaluated only where the left one holds,
that of `||` only where it does not. -/
def eval (v : Valuation) : Expr → Except ExprError Value
  | number x => .ok (.number x)
  | bool b => .ok (.bool b)
  | var name =>
    match v.get? name with
    | some x => .ok (.number x)
    | none => .error (.unknownVariable name)
  | unary .neg e => do return .number (-(← e.eval v).asNumber)
  | unary .not e => do return .bool (!(← e.eval v).asBool)
  | binary .and l r => do
    if (← l.eval v).asBool then return .bool (← r.eval v).asBool else return .bool false
  | binary .or l r => do
    if (← l.eval v).asBool then return .bool true else return .bool (← r.eval v).asBool
  | binary op l r => do
    let x ← l.eval v
    let y ← r.eval v
    arithmetic (binary op l r) op x.asNumber y.asNumber

def evalBool (v : Valuation) (e : Expr) : Except ExprError Bool := (e.eval v).map Value.asBool

def evalNumber (v : Valuation) (e : Expr) : Except ExprError Float := (e.eval v).map Value.asNumber

end Expr

/-- Whether a guard or an invariant holds; one without text always does. -/
def holds (text : String) (v : Valuation) : Except ExprError Bool :=
  if Text.allBlank text.toList then .ok true
  else do (← Expr.ofText text).evalBool v

end TimedMutation
