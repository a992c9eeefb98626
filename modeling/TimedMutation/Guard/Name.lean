import TimedMutation.Expr.Token

/-! Names inside the text of a guard. -/

namespace TimedMutation

/-- Whether one of the runs of name characters of a text, or an empty run between two other
characters, is `name`. -/
def mentions (text name : String) : Bool :=
  (text.toList.splitOnP fun c => !isNameChar c).any fun run => run == name.toList

end TimedMutation
