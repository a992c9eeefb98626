import TimedMutation.Decimal.Shortest
import TimedMutation.Text.Numeral

/-! Reading a double from decimal digits, correctly rounded. -/

namespace TimedMutation.Decimal

/-- The double nearest to a numeral. A numeral of more than 400 places before the point is beyond
every double, and one that starts more than 400 places after it is nearer to zero than to any. -/
def Numeral.toFloat (n : Numeral) : Float :=
  let point := n.exponent + (Text.ofNat n.coefficient).length
  if n.coefficient = 0 then 0.0
  else if 400 < point then 1.0 / 0.0
  else if point < -400 then 0.0
  else if 0 ≤ n.exponent then Float.ofScientific n.coefficient false n.exponent.toNat
  else Float.ofScientific n.coefficient true (-n.exponent).toNat

def isDigit (c : Char) : Bool := '0' ≤ c && c ≤ '9'

/-- The value of a run of digits, zero for none. -/
def digitsValue (cs : List Char) : Nat := (Text.natFrom? 10 0 cs).getD 0

/-- The exponent that `e` or `E` introduces, and nothing else. -/
def exponentPart? : List Char → Option Int
  | [] => some 0
  | e :: cs => if e == 'e' || e == 'E' then Text.int? 10 cs else none

/-- A number without a sign: digits with a decimal point before, among or after them, and an
exponent or none. -/
def unsigned? (cs : List Char) : Option Float :=
  let (whole, rest) := cs.span isDigit
  let (part, rest) :=
    match rest with
    | '.' :: after => after.span isDigit
    | other => ([], other)
  if whole.isEmpty && part.isEmpty then none
  else (exponentPart? rest).map fun e =>
    Numeral.toFloat ⟨digitsValue (whole ++ part), e - part.length⟩

/-- The names of what is not finite, in any letter case. -/
def special? (cs : List Char) : Option Float :=
  let name := String.ofList (cs.map Char.toLower)
  if name == "inf" || name == "infinity" then some (1.0 / 0.0)
  else if name == "nan" then some (0.0 / 0.0)
  else none

/-- The number that the text writes, with an optional sign. -/
def float? (cs : List Char) : Option Float :=
  let (negative, body) :=
    match cs with
    | '-' :: rest => (true, rest)
    | '+' :: rest => (false, rest)
    | rest => (false, rest)
  ((unsigned? body).or (special? body)).map (withSign negative)

end TimedMutation.Decimal
