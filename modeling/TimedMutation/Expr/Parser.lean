import TimedMutation.Expr.Error

/-!
The expression that a list of tokens stands for. From the loosest to the tightest: `||`, `&&`, `!`
before a comparison, comparisons, sums, products, signs, and what stands in parentheses. Every
repetition associates to the left.
-/

namespace TimedMutation.Expr

/-- Reads an expression off the front of a list of tokens. -/
abbrev Parser := List Token → Except Malformation (Expr × List Token)

/-- Go on from `left` as long as an operator follows, for at most `budget` operators. -/
def chain (operand : Parser) (operator? : Token → Option BinaryOp) :
    (budget : Nat) → (left : Expr) → Parser
  | 0, left, ts => .ok (left, ts)
  | _ + 1, left, [] => .ok (left, [])
  | budget + 1, left, t :: ts =>
    match operator? t with
    | none => .ok (left, t :: ts)
    | some op => do
      let (right, rest) ← operand ts
      chain operand operator? budget (.binary op left right) rest

/-- Operands of one kind with operators of one level between them. Each operator takes a token, so
the tokens that are left bound their number. -/
def operation (operand : Parser) (operator? : Token → Option BinaryOp) : Parser := fun ts => do
  let (left, rest) ← operand ts
  chain operand operator? rest.length left rest

def orOperator? : Token → Option BinaryOp
  | .either => some .or
  | _ => none

def andOperator? : Token → Option BinaryOp
  | .both => some .and
  | _ => none

def comparisonOperator? : Token → Option BinaryOp
  | .compare c => some (.compare c)
  | _ => none

def sumOperator? : Token → Option BinaryOp
  | .plus => some .add
  | .minus => some .sub
  | _ => none

def productOperator? : Token → Option BinaryOp
  | .star => some .mul
  | .slash => some .div
  | .percent => some .rem
  | _ => none

/-- A number, a name, or an expression in parentheses, which `inner` reads. -/
def primary (inner : Parser) : Parser
  | .number x :: ts => .ok (.number x, ts)
  | .name s :: ts =>
    .ok (if s = "true" then .bool true else if s = "false" then .bool false else .var s, ts)
  | .openParen :: ts => do
    match ← inner ts with
    | (e, .closeParen :: rest) => return (e, rest)
    | _ => throw .unclosed
  | t :: _ => .error (.misplaced t)
  | [] => .error .cutShort

/-- Signs before a primary expression. -/
def signed (inner : Parser) : Parser
  | .minus :: ts => do
    let (e, rest) ← signed inner ts
    return (.unary .neg e, rest)
  | .bang :: ts => do
    let (e, rest) ← signed inner ts
    return (.unary .not e, rest)
  | ts => primary inner ts

/-- A comparison, or the negation of everything up to the next `&&`. -/
def negated (comparison : Parser) : Parser
  | .bang :: ts => do
    let (e, rest) ← negated comparison ts
    return (.unary .not e, rest)
  | ts => comparison ts

def product (inner : Parser) : Parser := operation (signed inner) productOperator?

def sum (inner : Parser) : Parser := operation (product inner) sumOperator?

def comparison (inner : Parser) : Parser := operation (sum inner) comparisonOperator?

def conjunction (inner : Parser) : Parser := operation (negated (comparison inner)) andOperator?

def disjunction (inner : Parser) : Parser := operation (conjunction inner) orOperator?

/-- An expression with fewer than `depth` parentheses inside one another. -/
def nested : (depth : Nat) → Parser
  | 0 => fun _ => .error .cutShort
  | depth + 1 => disjunction (nested depth)

/-- The expression that a whole list of tokens stands for. A list is longer than its parentheses
are deep. -/
def ofTokens (ts : List Token) : Except Malformation Expr := do
  if ts.isEmpty then throw .empty
  match ← nested (ts.length + 1) ts with
  | (e, []) => return e
  | (_, t :: _) => throw (.trailing t)

/-- The expression that a text stands for. -/
def ofText (text : String) : Except ExprError Expr :=
  match Token.scan text.toList with
  | .error (c, offset) => .error (.malformedExpression text (.stray c offset))
  | .ok ts =>
    match ofTokens ts with
    | .error why => .error (.malformedExpression text why)
    | .ok e => .ok e

end TimedMutation.Expr
