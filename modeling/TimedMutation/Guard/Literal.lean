import TimedMutation.Expr.Token

/-! The whole numbers written inside the text of a guard. -/

namespace TimedMutation

/-- A whole number and what stands before and after it. -/
structure IntegerLiteral where
  before : List Char
  digits : List Char
  after : List Char
  value : Int

namespace IntegerLiteral

/-- The offset of the first digit in bytes. -/
def start (l : IntegerLiteral) : Nat := Text.byteLength l.before

/-- The offset after the last digit in bytes. -/
def stop (l : IntegerLiteral) : Nat := l.start + Text.byteLength l.digits

/-- The text with other digits in the place of the number. -/
def replacedBy (l : IntegerLiteral) (digits : String) : String :=
  String.ofList (l.before ++ digits.toList ++ l.after)

end IntegerLiteral

/-- Whether a character before a digit makes it part of a name or a fraction. -/
def gluesBefore (c : Char) : Bool := isNameChar c || c == '.'

/-- Whether a character after a digit makes it part of a name or a fraction. -/
def gluesAfter (c : Char) : Bool := isNameStart c || c == '.'

/-- The whole numbers of a text of which `read` has been passed, in reverse. Digits glued to a name
or a fraction are skipped with the letters, digits and dots that follow, and so are numbers beyond
64 bits. -/
def literalsFrom (read cs : List Char) : List IntegerLiteral :=
  match cs with
  | [] => []
  | c :: rest =>
    if Decimal.isDigit c then
      let digits := c :: rest.takeWhile Decimal.isDigit
      let after := rest.dropWhile Decimal.isDigit
      if (read.head?.map gluesBefore).getD false || (after.head?.map gluesAfter).getD false then
        let skipped := after.takeWhile fun c => c.isAlphanum || c == '.'
        literalsFrom (skipped.reverse ++ digits.reverse ++ read)
          (after.dropWhile fun c => c.isAlphanum || c == '.')
      else
        let value : Int := Decimal.digitsValue digits
        let others := literalsFrom (digits.reverse ++ read) after
        if Text.isWord64 value then ⟨read.reverse, digits, after, value⟩ :: others else others
    else literalsFrom (c :: read) rest
termination_by cs.length
decreasing_by
  · have h₁ := (List.dropWhile_sublist (fun c => c.isAlphanum || c == '.')
      (l := rest.dropWhile Decimal.isDigit)).length_le
    have h₂ := (List.dropWhile_sublist Decimal.isDigit (l := rest)).length_le
    simp only [List.length_cons]
    omega
  · have h₂ := (List.dropWhile_sublist Decimal.isDigit (l := rest)).length_le
    simp only [List.length_cons]
    omega
  · simp

/-- The whole numbers of a text from left to right. -/
def integerLiterals (text : String) : List IntegerLiteral := literalsFrom [] text.toList

end TimedMutation
