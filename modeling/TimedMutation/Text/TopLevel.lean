import TimedMutation.Text.Cut

/-! Splitting a text at separators that stand outside parentheses. -/

namespace TimedMutation.Text

/-- The depth of parentheses after a character. Unbalanced text may go below zero. -/
def depthAfter (depth : Int) (c : Char) : Int :=
  if c = '(' then depth + 1 else if c = ')' then depth - 1 else depth

/-- The pieces of a text between the separators that are found from the left at depth zero. A
separator of no characters is never found. -/
def piecesFrom (separator : List Char) (depth : Int) (cs : List Char) : List (List Char) :=
  match cs with
  | [] => [[]]
  | c :: rest =>
    match _found : if depth = 0 ∧ separator ≠ [] then afterStart? separator (c :: rest) else none with
    | some after => [] :: piecesFrom separator depth after
    | none =>
      match piecesFrom separator (depthAfter depth c) rest with
      | [] => [[c]]
      | piece :: pieces => (c :: piece) :: pieces
termination_by cs.length
decreasing_by
  · split at _found
    · rename_i h
      have l := congrArg List.length (afterStart?_eq_some.1 _found)
      have := List.length_pos_iff.2 h.2
      simp only [List.length_append] at l
      simp only [List.length_cons] at l ⊢
      omega
    · simp at _found
  · simp

/-- The pieces of a text between the separators outside parentheses. -/
def splitTopLevel (separator cs : List Char) : List (List Char) := piecesFrom separator 0 cs

theorem piecesFrom_ne_nil (separator : List Char) (depth : Int) (cs : List Char) :
    piecesFrom separator depth cs ≠ [] := by
  unfold piecesFrom
  split
  · simp
  · split
    · simp
    · split <;> simp

end TimedMutation.Text
