import TimedMutation.Decimal.Binary

/-! The fewest decimal digits that read back as a given double. -/

namespace TimedMutation.Decimal

/-- The number `coefficient * 10 ^ exponent`. -/
structure Numeral where
  coefficient : Nat
  exponent : Int
  deriving DecidableEq, Repr

/-- Which way a number goes that lies halfway between two numerals of the same length. -/
inductive Tie where
  | up
  | even
  deriving DecidableEq, Repr

/-- A fraction of natural numbers with a positive denominator. -/
structure Ratio where
  numerator : Nat
  denominator : Nat

/-- The greatest `e` with `10 ^ e` not above the ratio, found next to an estimate from the binary
lengths. -/
def Ratio.floorLog10 (r : Ratio) : Int :=
  let reaches (e : Int) : Bool :=
    if 0 ≤ e then r.denominator * Nat.pow 10 e.toNat ≤ r.numerator
    else r.denominator ≤ r.numerator * Nat.pow 10 (-e).toNat
  let estimate := (((Nat.log2 r.numerator : Int) - Nat.log2 r.denominator) * 30103) / 100000
  if reaches (estimate + 1) then estimate + 1
  else if reaches estimate then estimate
  else estimate - 1

/-- The numbers that a double stands for when it is read: its own value and everything nearer to it
than to a neighbour, all three over one denominator. The ends belong to it when `closed`. -/
structure Rounding where
  low : Nat
  value : Nat
  high : Nat
  denominator : Nat
  closed : Bool

def Rounding.ofDyadic (d : Dyadic) : Rounding :=
  let e := d.exponent - 2
  let scale := if 0 ≤ e then Nat.pow 2 e.toNat else 1
  let below := if d.mantissa = Nat.pow 2 52 then 1 else 2
  { low := (4 * d.mantissa - below) * scale
    value := 4 * d.mantissa * scale
    high := (4 * d.mantissa + 2) * scale
    denominator := if 0 ≤ e then 1 else Nat.pow 2 (-e).toNat
    closed := d.mantissa % 2 == 0 }

/-- The numeral on the grid of multiples of `10 ^ place` that reads back and is nearest, if the grid
has one. -/
def Rounding.onGrid? (r : Rounding) (tie : Tie) (place : Int) : Option Nat :=
  let up := if 0 ≤ place then 1 else Nat.pow 10 (-place).toNat
  let unit := if 0 ≤ place then r.denominator * Nat.pow 10 place.toNat else r.denominator
  let below := r.value * up / unit
  let rest := r.value * up % unit
  let within (n : Nat) : Bool :=
    if r.closed then r.low * up ≤ n * unit && n * unit ≤ r.high * up
    else r.low * up < n * unit && n * unit < r.high * up
  let goUp : Bool :=
    if 2 * rest = unit then (match tie with | .up => true | .even => below % 2 == 1)
    else unit < 2 * rest
  match within below, within (below + 1) with
  | true, true => some (if goUp then below + 1 else below)
  | true, false => some below
  | false, true => some (below + 1)
  | false, false => none

/-- The numeral without the zeros at the end of its coefficient. -/
def Numeral.dropZeros (n : Numeral) : Numeral :=
  if h : n.coefficient ≠ 0 ∧ n.coefficient % 10 = 0 then
    Numeral.dropZeros ⟨n.coefficient / 10, n.exponent + 1⟩
  else n
termination_by n.coefficient
decreasing_by omega

/-- The shortest numeral that reads back as a positive double, and of those of its length the
nearest. Seventeen digits are enough for every double. -/
def shortest (tie : Tie) (d : Dyadic) : Numeral :=
  let r := Rounding.ofDyadic d
  let top := (Ratio.floorLog10 ⟨r.value, r.denominator⟩) + 1
  let found := (List.range 17).findSome? fun (k : Nat) =>
    let place := top - (k + 1 : Nat)
    (r.onGrid? tie place).map fun n => Numeral.mk n place
  (found.getD ⟨0, 0⟩).dropZeros

end TimedMutation.Decimal
