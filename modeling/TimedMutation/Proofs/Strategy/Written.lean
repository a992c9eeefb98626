import Mathlib.Data.List.Infix
import TimedMutation.Proofs.Text.Cut
import TimedMutation.Strategy.Line

/-! Strategies as they are written, and which texts can be written in their places. -/

namespace TimedMutation

/-- The header of a state. -/
def StrategyState.render (s : StrategyState) : String :=
  "State: ( " ++ s.first ++ " " ++ s.second ++ " )" ++ String.join (s.equalities.map (" " ++ ·)) ++
    " [spoiler]"

/-- A rule with all that a strategy text writes of it. A transition also has the location that it
leaves and a selection, which are not kept. -/
inductive WrittenRule where
  | delay (condition : String)
  | action (rule : ActionRule) (source selection : String)

namespace WrittenRule

def rule : WrittenRule → StrategyRule
  | delay condition => .delay condition
  | action rule _ _ => .action rule

/-- The action of a rule, or `1` for one without an action. -/
def syncText : Option (String × Direction) → String
  | none => "1"
  | some (label, direction) => direction.actionText label

/-- The update of a rule, or `1` for one without a text. -/
def updateText (update : String) : String := if update = "" then "1" else update

def descriptor (rule : ActionRule) (source selection : String) : String :=
  rule.process ++ "." ++ source ++ "->" ++ rule.process ++ "." ++ rule.destination ++ " \x7b " ++
    selection ++ ", " ++ syncText rule.sync ++ ", " ++ updateText rule.update ++ " \x7d"

def render : WrittenRule → String
  | delay condition => "While you are in " ++ condition ++ ", wait."
  | action rule source selection =>
    "When you are in " ++ rule.condition ++ ", take transition " ++
      descriptor rule source selection ++ " [SKIP]"

end WrittenRule

/-- A state with its rules as a block of a strategy text. -/
structure WrittenBlock where
  state : StrategyState
  rules : List WrittenRule

/-- The lines of a block; the blank one ends it. -/
def WrittenBlock.render (b : WrittenBlock) : List String :=
  b.state.render :: b.rules.map WrittenRule.render ++ [""]

example : WrittenBlock.render {
    state := ⟨"S.L0", "M.L0", ["S.v=0", "M.v=0"]⟩
    rules := [.delay "(S.x<=2)",
      .action ⟨"(S.x>2)", "S", "L1", some ("coin", .input), "x := 0"⟩ "L0" "1"] } = [
    "State: ( S.L0 M.L0 ) S.v=0 M.v=0 [spoiler]",
    "While you are in (S.x<=2), wait.",
    "When you are in (S.x>2), take transition S.L0->S.L1 \x7b 1, coin?, x := 0 \x7d [SKIP]",
    ""] := by
  decide

/-- The text of some lines, each of them ended. -/
def textOf (lines : List String) : String := String.join (lines.map (· ++ "\n"))

/-! ### What can be written -/

/-- The text is no longer than a line. -/
def IsLine (text : String) : Prop := '\n' ∉ text.toList

instance (text : String) : Decidable (IsLine text) := inferInstanceAs (Decidable (¬ '\n' ∈ text.toList))

theorem isLine_append {text text' : String} :
    IsLine (text ++ text') ↔ IsLine text ∧ IsLine text' := by
  rw [IsLine, String.toList_append, List.mem_append, not_or]
  rfl

theorem isLine_of_no_blank {text : String} (h : ∀ c ∈ text.toList, Text.isBlank c = false) :
    IsLine text := by
  intro hmem
  have hblank := h _ hmem
  cases hblank

theorem isLine_of_isWord {text : String} (h : Text.isWord text.toList = true) : IsLine text :=
  isLine_of_no_blank fun _ hc => Text.isBlank_of_isWordChar (Text.isWordChar_of_isWord h hc)

/-- A text without white space or a mark. -/
def FreeOf (mark : Char) (text : String) : Prop :=
  ∀ c ∈ text.toList, Text.isBlank c = false ∧ c ≠ mark

instance (mark : Char) (text : String) : Decidable (FreeOf mark text) :=
  List.decidableBAll (fun c => Text.isBlank c = false ∧ c ≠ mark) text.toList

/-- A location of a header. -/
structure IsLocationText (text : String) : Prop where
  ne_nil : text.toList ≠ []
  chars : FreeOf ')' text

instance (text : String) : Decidable (IsLocationText text) :=
  decidable_of_iff (text.toList ≠ [] ∧ FreeOf ')' text)
    ⟨fun h => ⟨h.1, h.2⟩, fun h => ⟨h.ne_nil, h.chars⟩⟩

/-- An equality of a header. -/
structure IsEqualityText (text : String) : Prop where
  chars : FreeOf ',' text
  equals : '=' ∈ text.toList

instance (text : String) : Decidable (IsEqualityText text) :=
  decidable_of_iff (FreeOf ',' text ∧ '=' ∈ text.toList)
    ⟨fun h => ⟨h.1, h.2⟩, fun h => ⟨h.chars, h.equals⟩⟩

/-- The first equality of a header may not open a bracket, which may stand around all of them. -/
structure StrategyState.Writable (s : StrategyState) : Prop where
  first : IsLocationText s.first
  second : IsLocationText s.second
  equalities : ∀ e ∈ s.equalities, IsEqualityText e
  bracket : ∀ e ∈ s.equalities.head?, e.toList.head? ≠ some '['

instance (s : StrategyState) : Decidable s.Writable :=
  decidable_of_iff (IsLocationText s.first ∧ IsLocationText s.second ∧
      (∀ e ∈ s.equalities, IsEqualityText e) ∧ ∀ e ∈ s.equalities.head?, e.toList.head? ≠ some '[')
    ⟨fun ⟨h, h', hs, hb⟩ => ⟨h, h', hs, hb⟩, fun h => ⟨h.first, h.second, h.equalities, h.bracket⟩⟩

/-- A condition or an update: one line without white space at its ends. -/
structure IsFreeText (text : String) : Prop where
  trimmed : Text.Trimmed text.toList
  line : IsLine text

instance (text : String) : Decidable (IsFreeText text) :=
  decidable_of_iff (Text.Trimmed text.toList ∧ IsLine text)
    ⟨fun h => ⟨h.1, h.2⟩, fun h => ⟨h.trimmed, h.line⟩⟩

/-- A transition whose condition does not hold the mark in front of descriptors, between names, with a
label and a selection that do not end early. An update `1` would be read as none. -/
structure ActionRule.Writable (rule : ActionRule) (source selection : String) : Prop where
  condition : IsFreeText rule.condition
  mark : ¬ ", take transition ".toList <:+: rule.condition.toList
  process : Text.isWord rule.process.toList = true
  source : Text.isWord source.toList = true
  destination : Text.isWord rule.destination.toList = true
  label : ∀ action ∈ rule.sync, FreeOf ',' action.1
  update : IsFreeText rule.update
  update_ne : rule.update ≠ "1"
  selection_line : IsLine selection
  selection : ',' ∉ selection.toList

instance (rule : ActionRule) (source selection : String) : Decidable (rule.Writable source selection) :=
  decidable_of_iff (IsFreeText rule.condition ∧
      (¬ ", take transition ".toList <:+: rule.condition.toList) ∧
      Text.isWord rule.process.toList = true ∧ Text.isWord source.toList = true ∧
      Text.isWord rule.destination.toList = true ∧ (∀ action ∈ rule.sync, FreeOf ',' action.1) ∧
      IsFreeText rule.update ∧ rule.update ≠ "1" ∧ IsLine selection ∧ ',' ∉ selection.toList)
    ⟨fun ⟨hc, hm, hp, hs, hd, hl, hu, hn, hline, hsel⟩ => ⟨hc, hm, hp, hs, hd, hl, hu, hn, hline, hsel⟩,
      fun h => ⟨h.condition, h.mark, h.process, h.source, h.destination, h.label, h.update, h.update_ne,
        h.selection_line, h.selection⟩⟩

def WrittenRule.Writable : WrittenRule → Prop
  | delay condition => IsFreeText condition
  | action rule source selection => rule.Writable source selection

instance (rule : WrittenRule) : Decidable rule.Writable :=
  match rule with
  | .delay condition => inferInstanceAs (Decidable (IsFreeText condition))
  | .action rule source selection => inferInstanceAs (Decidable (rule.Writable source selection))

structure WrittenBlock.Writable (b : WrittenBlock) : Prop where
  state : b.state.Writable
  rules : ∀ rule ∈ b.rules, rule.Writable

instance (b : WrittenBlock) : Decidable b.Writable :=
  decidable_of_iff (b.state.Writable ∧ ∀ rule ∈ b.rules, rule.Writable)
    ⟨fun h => ⟨h.1, h.2⟩, fun h => ⟨h.state, h.rules⟩⟩

end TimedMutation
