/-! Which of several candidates wins. -/

namespace TimedMutation

inductive TieBreak where
  | firstDeclared
  | lastDeclared
  deriving DecidableEq, Repr

namespace TieBreak

def name : TieBreak → String
  | firstDeclared => "first_declared"
  | lastDeclared => "last_declared"

def ofName? (s : String) : Option TieBreak := [firstDeclared, lastDeclared].find? fun t => t.name == s

theorem ofName?_name (t : TieBreak) : ofName? t.name = some t := by cases t <;> decide

def pick {α : Type} : TieBreak → List α → Option α
  | firstDeclared, candidates => candidates.head?
  | lastDeclared, candidates => candidates.getLast?

theorem mem_of_pick {α : Type} {t : TieBreak} {candidates : List α} {a : α}
    (h : t.pick candidates = some a) : a ∈ candidates := by
  cases t
  · exact List.mem_of_head? h
  · exact List.mem_of_getLast? h

@[simp] theorem pick_eq_none {α : Type} {t : TieBreak} {candidates : List α} :
    t.pick candidates = none ↔ candidates = [] := by
  cases t <;> simp [pick]

end TieBreak

end TimedMutation
