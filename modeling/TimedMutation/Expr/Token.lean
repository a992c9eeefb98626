import TimedMutation.Expr.Basic
import TimedMutation.Decimal.Read

/-! The tokens of expression text. -/

namespace TimedMutation

inductive Token where
  | number (x : Float)
  | name (s : String)
  | openParen | closeParen
  | plus | minus | star | slash | percent
  | bang | both | either
  | compare (c : Comparison)

namespace Token

/-- How a message names a token. -/
def label : Token → String
  | number x => "Number(" ++ Decimal.Layout.token.text x ++ ")"
  | name s => "Ident(\"" ++ s ++ "\")"
  | openParen => "LParen"
  | closeParen => "RParen"
  | plus => "Plus"
  | minus => "Minus"
  | star => "Star"
  | slash => "Slash"
  | percent => "Percent"
  | bang => "Not"
  | both => "AndAnd"
  | either => "OrOr"
  | compare .lt => "Rel(Lt)"
  | compare .le => "Rel(Le)"
  | compare .gt => "Rel(Gt)"
  | compare .ge => "Rel(Ge)"
  | compare .eq => "Rel(Eq)"
  | compare .ne => "Rel(Ne)"

end Token

/-- The letters of a name are those of ASCII. -/
def isNameStart (c : Char) : Bool := c.isAlpha || c == '_'

def isNameChar (c : Char) : Bool := c.isAlphanum || c == '_'

namespace Token

/-- The longest part of a text that reads as runs of name characters joined by single dots, after a
start that is one of them. A dot counts only before a name character. -/
def qualifiedName : List Char → List Char × List Char
  | [] => ([], [])
  | c :: cs =>
    if isNameChar c || (c == '.' && (cs.head?.map isNameChar).getD false) then
      let (s, rest) := qualifiedName cs
      (c :: s, rest)
    else ([], c :: cs)

theorem qualifiedName_append (cs : List Char) :
    (qualifiedName cs).1 ++ (qualifiedName cs).2 = cs := by
  induction cs with
  | nil => rfl
  | cons c cs ih =>
    simp only [qualifiedName]
    split
    · simp [ih]
    · rfl

/-- The fraction of a number: a dot and the digits after it, if there are any. -/
def fractionDigits : List Char → List Char × List Char
  | '.' :: cs =>
    let digits := cs.takeWhile Decimal.isDigit
    if digits.isEmpty then ([], '.' :: cs) else (digits, cs.dropWhile Decimal.isDigit)
  | cs => ([], cs)

/-- The number that starts a text: digits and a fraction or none. -/
def numberAt (cs : List Char) : Float × List Char :=
  let whole := cs.takeWhile Decimal.isDigit
  let (part, rest) := fractionDigits (cs.dropWhile Decimal.isDigit)
  (Decimal.Numeral.toFloat ⟨Decimal.digitsValue (whole ++ part), -(part.length : Int)⟩, rest)

/-- The operator or parenthesis that starts a text; of two, the longer. -/
def symbolAt? : List Char → Option (Token × List Char)
  | '(' :: cs => some (openParen, cs)
  | ')' :: cs => some (closeParen, cs)
  | '+' :: cs => some (plus, cs)
  | '-' :: cs => some (minus, cs)
  | '*' :: cs => some (star, cs)
  | '/' :: cs => some (slash, cs)
  | '%' :: cs => some (percent, cs)
  | '&' :: '&' :: cs => some (both, cs)
  | '|' :: '|' :: cs => some (either, cs)
  | '<' :: '=' :: cs => some (compare .le, cs)
  | '<' :: cs => some (compare .lt, cs)
  | '>' :: '=' :: cs => some (compare .ge, cs)
  | '>' :: cs => some (compare .gt, cs)
  | '=' :: '=' :: cs => some (compare .eq, cs)
  | '!' :: '=' :: cs => some (compare .ne, cs)
  | '!' :: cs => some (bang, cs)
  | _ => none

/-- The token that starts a text. -/
def at? : List Char → Option (Token × List Char)
  | [] => none
  | c :: cs =>
    if Decimal.isDigit c then
      let (x, rest) := numberAt (c :: cs)
      some (number x, rest)
    else if isNameStart c then
      let (s, rest) := qualifiedName cs
      some (name (String.ofList (c :: s)), rest)
    else symbolAt? (c :: cs)

theorem length_fractionDigits_le (cs : List Char) :
    (fractionDigits cs).2.length ≤ cs.length := by
  unfold fractionDigits
  split
  · rename_i rest
    have := (List.dropWhile_sublist Decimal.isDigit (l := rest)).length_le
    dsimp only
    split <;> simp only [List.length_cons] <;> omega
  · exact Nat.le_refl _

/-- A token takes at least one character. -/
theorem length_lt_of_at? {cs rest : List Char} {t : Token} (h : at? cs = some (t, rest)) :
    rest.length < cs.length := by
  cases cs with
  | nil => simp [at?] at h
  | cons c cs =>
    simp only [at?] at h
    split at h
    · rename_i hd
      simp only [Option.some.injEq, Prod.mk.injEq, numberAt] at h
      rw [← h.2]
      have h₁ := length_fractionDigits_le ((c :: cs).dropWhile Decimal.isDigit)
      have h₂ := (List.dropWhile_sublist Decimal.isDigit (l := cs)).length_le
      simp only [List.dropWhile_cons, hd, if_true] at h₁ ⊢
      simp only [List.length_cons]
      omega
    · split at h
      · simp only [Option.some.injEq, Prod.mk.injEq] at h
        rw [← h.2]
        have := congrArg List.length (qualifiedName_append cs)
        simp only [List.length_append, List.length_cons] at this ⊢
        omega
      · unfold symbolAt? at h
        split at h <;> first | (simp at h; done) | skip
        all_goals
          simp only [Option.some.injEq, Prod.mk.injEq] at h
          simp_all
          try omega

/-- The tokens of a text of which `offset` characters have been read, or the first character that
starts no token and its offset. White space separates tokens and is no token. -/
def scanFrom (offset : Nat) (cs : List Char) : Except (Char × Nat) (List Token) :=
  match cs with
  | [] => .ok []
  | c :: rest =>
    if Text.isBlank c then scanFrom (offset + 1) rest
    else
      match _found : at? (c :: rest) with
      | some (t, after) => do
        let ts ← scanFrom (offset + ((rest.length + 1) - after.length)) after
        return t :: ts
      | none => .error (c, offset)
termination_by cs.length
decreasing_by
  · simp
  · exact length_lt_of_at? _found

/-- The tokens of a text. -/
def scan (cs : List Char) : Except (Char × Nat) (List Token) := scanFrom 0 cs

end Token

end TimedMutation
