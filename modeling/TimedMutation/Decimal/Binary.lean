import TimedMutation.Text.Numeral

/-! The number that a double stands for, as an exact multiple of a power of two. -/

namespace TimedMutation.Decimal

/-- The number `mantissa * 2 ^ exponent`. -/
structure Dyadic where
  mantissa : Nat
  exponent : Int
  deriving DecidableEq, Repr

/-- A double without its sign. -/
inductive Magnitude where
  | finite (value : Dyadic)
  | infinite
  | nan
  deriving DecidableEq, Repr

def isNegative (x : Float) : Bool := x.toBits.toNat / Nat.pow 2 63 == 1

/-- The magnitude behind the exponent field and the fraction field of the 64 bits. A finite
mantissa is below `2 ^ 53` and the exponent lies between -1074 and 971. -/
def magnitude (x : Float) : Magnitude :=
  let bits : Nat := x.toBits.toNat
  let field : Nat := bits / Nat.pow 2 52 % Nat.pow 2 11
  let fraction : Nat := bits % Nat.pow 2 52
  if field = 2047 then if fraction = 0 then .infinite else .nan
  else if field = 0 then .finite ⟨fraction, -1074⟩
  else .finite ⟨fraction + Nat.pow 2 52, (field : Int) - 1075⟩

def withSign (negative : Bool) (x : Float) : Float := if negative then -x else x

/-- The double of a number that has one: bits below the last place that a double holds are
dropped. -/
def Dyadic.toFloat (d : Dyadic) : Float :=
  if d.mantissa = 0 then Float.ofBits 0
  else
    let place := max (d.exponent + Nat.log2 d.mantissa - 52) (-1074)
    let shift := d.exponent - place
    let m := if 0 ≤ shift then d.mantissa <<< shift.toNat else d.mantissa >>> (-shift).toNat
    let bits := if m < Nat.pow 2 52 then m
      else (place + 1075).toNat * Nat.pow 2 52 + (m - Nat.pow 2 52)
    Float.ofBits (UInt64.ofNat bits)

/-- The remainder of a division whose quotient is cut toward zero. It has the sign of the dividend
and is exact. -/
def remainder (x y : Float) : Float :=
  match magnitude x, magnitude y with
  | .finite a, .finite b =>
    if b.mantissa = 0 then 0.0 / 0.0
    else
      let place := min a.exponent b.exponent
      let m := (a.mantissa <<< (a.exponent - place).toNat) %
        (b.mantissa <<< (b.exponent - place).toNat)
      withSign (isNegative x) (Dyadic.toFloat ⟨m, place⟩)
  | .finite _, .infinite => x
  | _, _ => 0.0 / 0.0

/-- The integer part, held within 64 bits with a sign; not-a-number counts as zero. -/
def toWord64 (x : Float) : Int :=
  let bounded (n : Nat) : Int :=
    if isNegative x then max (-(n : Int)) (-Text.wordLimit)
    else min (n : Int) (Text.wordLimit - 1)
  match magnitude x with
  | .nan => 0
  | .infinite => bounded Text.countLimit
  | .finite d =>
    bounded (if 0 ≤ d.exponent then d.mantissa <<< d.exponent.toNat
      else d.mantissa >>> (-d.exponent).toNat)

theorem toWord64_bounds (x : Float) : -Text.wordLimit ≤ toWord64 x ∧ toWord64 x < Text.wordLimit := by
  simp only [toWord64, Text.wordLimit]
  split <;> (try split) <;> omega

end TimedMutation.Decimal
