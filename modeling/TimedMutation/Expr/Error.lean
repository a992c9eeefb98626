import TimedMutation.Expr.Token

/-! Why the text of an expression, a relation or an update is refused, and why an evaluation
fails. -/

namespace TimedMutation

/-- What is wrong with the text of an expression. -/
inductive Malformation where
  | stray (c : Char) (offset : Nat)
  | empty
  | trailing (t : Token)
  | unclosed
  | misplaced (t : Token)
  | cutShort
  | emptyConjunct

def Malformation.message : Malformation → String
  | stray c offset => "unexpected '" ++ c.toString ++ "' at offset " ++ Text.ofNat offset
  | empty => "empty expression"
  | trailing t => "unexpected trailing " ++ t.label
  | unclosed => "missing ')'"
  | misplaced t => "unexpected " ++ t.label
  | cutShort => "unexpected end of input"
  | emptyConjunct => "empty conjunct"

/-- What is wrong with the text of a relation. -/
inductive RelationFault where
  | noOperator | unknownOperator | emptySide | secondOperator
  deriving DecidableEq

def RelationFault.message : RelationFault → String
  | noOperator => "no relational operator"
  | unknownOperator => "unknown relational operator"
  | emptySide => "empty side"
  | secondOperator => "more than one relational operator"

/-- What is wrong with the text of an assignment. -/
inductive AssignmentFault where
  | noEquals | badTarget | noValue
  deriving DecidableEq

def AssignmentFault.message : AssignmentFault → String
  | noEquals => "missing '='"
  | badTarget => "assignment target must be an identifier"
  | noValue => "missing right-hand side"

inductive ExprError where
  | malformedExpression (text : String) (why : Malformation)
  | malformedRelation (text : String) (why : RelationFault)
  | malformedUpdate (text : String) (why : AssignmentFault)
  /-- A name without a value was evaluated. -/
  | unknownVariable (name : String)
  /-- The right operand of `/` or `%` in this expression came out as zero. -/
  | divisionByZero (expression : Expr)

def ExprError.message : ExprError → String
  | malformedExpression text why => "Malformed expression '" ++ text ++ "': " ++ why.message
  | malformedRelation text why => "Malformed relation '" ++ text ++ "': " ++ why.message
  | malformedUpdate text why => "Malformed update '" ++ text ++ "': " ++ why.message
  | unknownVariable name => "Unknown variable '" ++ name ++ "' in '" ++ name ++ "'"
  | divisionByZero e => "Type error in '" ++ e.render ++ "': division by zero"

end TimedMutation
