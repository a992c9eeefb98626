import TimedMutation.Text.Cut

/-! Whole numbers in decimal, hexadecimal, octal and binary digits. -/

namespace TimedMutation.Text

/-- The value of a digit in a base up to sixteen. -/
def digitValue? (base : Nat) (c : Char) : Option Nat :=
  let n := c.toNat
  let v :=
    if 0x30 ≤ n ∧ n ≤ 0x39 then n - 0x30
    else if 0x61 ≤ n ∧ n ≤ 0x66 then n - 0x61 + 10
    else if 0x41 ≤ n ∧ n ≤ 0x46 then n - 0x41 + 10
    else base
  if v < base then some v else none

/-- The value of a run of digits after the digits that `acc` stands for. -/
def natFrom? (base : Nat) (acc : Nat) : List Char → Option Nat
  | [] => some acc
  | c :: cs =>
    match digitValue? base c with
    | some d => natFrom? base (acc * base + d) cs
    | none => none

/-- The number written by one digit or more. -/
def nat? (base : Nat) (cs : List Char) : Option Nat :=
  if cs.isEmpty then none else natFrom? base 0 cs

/-- The number that `cs` writes with an optional sign. -/
def int? (base : Nat) (cs : List Char) : Option Int :=
  match cs with
  | '-' :: digits => (nat? base digits).map fun n => -(n : Int)
  | '+' :: digits => (nat? base digits).map Int.ofNat
  | digits => (nat? base digits).map Int.ofNat

/-- The decimal digits of a natural number. -/
def ofNat (n : Nat) : String := n.repr

theorem ofNat_injective {m n : Nat} (h : ofNat m = ofNat n) : m = n := by
  have hvalues := congrArg (fun digits => Nat.ofDigitChars 10 digits.toList 0) h
  simpa [ofNat] using hvalues

/-- The decimal digits of an integer, a minus sign before those of a negative one. -/
def ofInt : Int → String
  | .ofNat n => n.repr
  | .negSucc n => "-" ++ (n + 1).repr

/-- The least positive integer that 64 bits with a sign do not hold: 2 to the power of 63. -/
def wordLimit : Int := 9223372036854775808

/-- The least number that 64 bits without a sign do not hold: 2 to the power of 64. -/
def countLimit : Nat := 18446744073709551616

/-- The range of integers in 64 bits with a sign. -/
def isWord64 (n : Int) : Bool := -wordLimit ≤ n && n < wordLimit

/-- The range of integers in 64 bits without a sign. -/
def isCount64 (n : Int) : Bool := 0 ≤ n && n < countLimit

end TimedMutation.Text
