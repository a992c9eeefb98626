import TimedMutation.Decimal.Shortest
import TimedMutation.Text.Numeral

/-! How a double is written once its digits are chosen. -/

namespace TimedMutation.Decimal

/-- The decisions of one way to write doubles. -/
structure Layout where
  /-- Which way a tie between two shortest numerals goes. -/
  tie : Tie
  /-- Whether a whole number is written with a fraction of one zero. -/
  fraction : Bool
  /-- The places of the decimal point, counted from the left of the first digit, between which no
  exponent is written; without a range none is ever written. -/
  positional : Option (Int × Int)
  infinity : String
  nan : String

/-- The form of every number in a message or a snapshot: positional, a fraction only where there is
one. -/
def Layout.plain : Layout := ⟨.up, false, none, "inf", "NaN"⟩

/-- The form of a number token in a message: a fraction always, an exponent below `1e-4` and from
`1e16` on. -/
def Layout.token : Layout := ⟨.up, true, some (-3, 16), "inf", "NaN"⟩

/-- The form of a number in a document: a fraction always, an exponent below `1e-5` and from `1e16`
on, and the names that a document gives to what is not finite. -/
def Layout.document : Layout := ⟨.even, true, some (-4, 16), ".inf", ".nan"⟩

private def zeros (n : Nat) : List Char := List.replicate n '0'

/-- The digits around a decimal point that stands `point` places right of their start. -/
def positionalText (fraction : Bool) (digits : List Char) (point : Int) : List Char :=
  if point ≤ 0 then '0' :: '.' :: (zeros (-point).toNat ++ digits)
  else if digits.length ≤ point.toNat then
    digits ++ zeros (point.toNat - digits.length) ++ (if fraction then ['.', '0'] else [])
  else digits.take point.toNat ++ '.' :: digits.drop point.toNat

/-- One digit before the decimal point, the others after it, and the exponent. -/
def exponentText (digits : List Char) (point : Int) : List Char :=
  let head := digits.take 1 ++ (if digits.length ≤ 1 then [] else '.' :: digits.drop 1)
  head ++ 'e' :: (Text.ofInt (point - 1)).toList

def Layout.numeral (layout : Layout) (n : Numeral) : List Char :=
  let digits := (Text.ofNat n.coefficient).toList
  let point := n.exponent + digits.length
  let positional :=
    match layout.positional with
    | none => true
    | some (least, greatest) => decide (least ≤ point) && decide (point ≤ greatest)
  if positional then positionalText layout.fraction digits point
  else exponentText digits point

/-- The text of a double. -/
def Layout.text (layout : Layout) (x : Float) : String :=
  let sign := if isNegative x then "-" else ""
  match magnitude x with
  | .nan => layout.nan
  | .infinite => sign ++ layout.infinity
  | .finite d =>
    if d.mantissa = 0 then sign ++ (if layout.fraction then "0.0" else "0")
    else sign ++ String.ofList (layout.numeral (shortest layout.tie d))

/-- The text of a double in messages and snapshots. -/
def plain (x : Float) : String := Layout.plain.text x

/-- A nonnegative finite double with one digit after the decimal point; a half goes to the even
neighbour. -/
def oneDecimal (x : Float) : String :=
  match magnitude x with
  | .finite d =>
    let top := 10 * d.mantissa * (if 0 ≤ d.exponent then Nat.pow 2 d.exponent.toNat else 1)
    let unit := if 0 ≤ d.exponent then 1 else Nat.pow 2 (-d.exponent).toNat
    let below := top / unit
    let rest := top % unit
    let n := if unit < 2 * rest ∨ (2 * rest = unit ∧ below % 2 = 1) then below + 1 else below
    Text.ofNat (n / 10) ++ "." ++ Text.ofNat (n % 10)
  | .infinite => "inf"
  | .nan => "NaN"

end TimedMutation.Decimal
