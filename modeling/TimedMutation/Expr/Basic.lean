import TimedMutation.Decimal.Layout

/-! Expressions of guards, invariants, updates and strategy conditions. -/

namespace TimedMutation

/-- A comparison of two numbers. -/
inductive Comparison where
  | lt | le | gt | ge | eq | ne
  deriving DecidableEq, Repr

namespace Comparison

/-- The comparisons in the order in which operators try them. -/
def all : List Comparison := [lt, le, eq, ne, ge, gt]

/-- The comparisons that a clock relation may be changed to. -/
def forClocks : List Comparison := [le, gt]

def symbol : Comparison → String
  | lt => "<"
  | le => "<="
  | gt => ">"
  | ge => ">="
  | eq => "=="
  | ne => "!="

/-- A short name that may stand inside an identifier. -/
def name : Comparison → String
  | lt => "lt"
  | le => "le"
  | gt => "gt"
  | ge => "ge"
  | eq => "eq"
  | ne => "ne"

def ofSymbol? (symbol : String) : Option Comparison := all.find? fun c => c.symbol == symbol

def holds (x y : Float) : Comparison → Bool
  | lt => decide (x < y)
  | le => decide (x ≤ y)
  | gt => decide (y < x)
  | ge => decide (y ≤ x)
  | eq => x == y
  | ne => x != y

theorem mem_all (c : Comparison) : c ∈ all := by cases c <;> decide

theorem symbol_injective {c d : Comparison} (h : c.symbol = d.symbol) : c = d := by
  cases c <;> cases d <;> first | rfl | exact absurd h (by decide)

theorem ofSymbol?_symbol (c : Comparison) : ofSymbol? c.symbol = some c := by cases c <;> decide

end Comparison

inductive UnaryOp where
  | neg | not
  deriving DecidableEq, Repr

inductive BinaryOp where
  | add | sub | mul | div | rem
  | compare (c : Comparison)
  | and | or
  deriving DecidableEq, Repr

def UnaryOp.symbol : UnaryOp → String
  | neg => "-"
  | not => "!"

def BinaryOp.symbol : BinaryOp → String
  | add => "+"
  | sub => "-"
  | mul => "*"
  | div => "/"
  | rem => "%"
  | compare c => c.symbol
  | and => "&&"
  | or => "||"

inductive Expr where
  | number (x : Float)
  | bool (b : Bool)
  | var (name : String)
  | unary (op : UnaryOp) (e : Expr)
  | binary (op : BinaryOp) (left right : Expr)

namespace Expr

/-- The text of an expression, in which every binary operation stands in parentheses. -/
def render : Expr → String
  | number x => Decimal.plain x
  | bool b => if b then "true" else "false"
  | var name => name
  | unary op e => op.symbol ++ e.render
  | binary op l r => "(" ++ l.render ++ " " ++ op.symbol ++ " " ++ r.render ++ ")"

/-- The names of an expression after those in `seen`, each once, in order of first use. -/
def collectNames (seen : List String) : Expr → List String
  | number _ | bool _ => seen
  | var name => if name ∈ seen then seen else seen ++ [name]
  | unary _ e => e.collectNames seen
  | binary _ l r => r.collectNames (l.collectNames seen)

/-- The names that an expression refers to, in order of first use. -/
def names (e : Expr) : List String := e.collectNames []

end Expr

end TimedMutation
