import TimedMutation.Strategy.Basic
import TimedMutation.Text.Word

/-! Lines of a strategy text.

```text
State: ( S.L0 M.L0 ) S.v=0 M.v=0 [spoiler]
While you are in (S.x<=2), wait.
When you are in (S.x>2), take transition S.L0->S.L1 { 1, coin?, x := 0 } [SKIP]
```
-/

namespace TimedMutation

inductive StrategyError where
  /-- The descriptor of a transition is not `P.A->P.B { select, sync, update }`. -/
  | transition (descriptor : String)
  /-- A header or a line inside a block has none of the known forms. -/
  | line (number : Nat) (text : String)
  deriving DecidableEq, Repr

def StrategyError.message : StrategyError → String
  | transition descriptor => "Malformed transition descriptor '" ++ descriptor ++ "'"
  | line number text => "Malformed strategy line " ++ Text.ofNat number ++ ": '" ++ text ++ "'"

/-- Why a line has none of the known forms. -/
inductive LineFault where
  | header | delay | action | unrecognised
  deriving DecidableEq, Repr

def LineFault.message : LineFault → String
  | header => "malformed state header"
  | delay => "malformed delay rule"
  | action => "malformed action rule"
  | unrecognised => "unrecognised line"

inductive StrategyLine where
  | blank
  | header (state : StrategyState)
  | rule (rule : StrategyRule)
  | malformed (why : LineFault)
  deriving DecidableEq, Repr

namespace StrategyLine

open Text

def headerMark : List Char := "State:".toList
def delayMark : List Char := "While you are in".toList
def delayEnd : List Char := ", wait.".toList
def actionMark : List Char := "When you are in".toList
def transitionMark : List Char := ", take transition ".toList
def spoilerMark : List Char := "[spoiler]".toList
def skipMark : List Char := "[SKIP]".toList

def startsBlank (cs : List Char) : Bool := (cs.head?.map isBlank).getD false

/-- A text without the mark that may end it. -/
def withoutEnd (mark cs : List Char) : List Char := (beforeEnd? mark cs).getD cs

/-- What stands between an opening bracket that starts a text and the closing one that ends it, or
the text as it is. -/
def withoutBrackets (cs : List Char) : List Char :=
  ((afterStart? ['['] cs).bind (beforeEnd? [']'])).getD cs

/-- Equalities between white space or commas; each must hold an equals sign. -/
def equalities? (cs : List Char) : Option (List String) :=
  let found := (cs.splitOnP fun c => isBlank c || c == ',').filter fun e => !e.isEmpty
  if found.all fun e => e.contains '=' then some (found.map String.ofList) else none

/-- A state after its mark: `( first second ) equalities [spoiler]`, the equalities in brackets or
without. -/
def state? (cs : List Char) : Option StrategyState := do
  let inner ← afterStart? ['('] (trimEnd (withoutEnd spoilerMark (trim cs)))
  let (pair, after) ← cutAt? [')'] inner
  match words pair with
  | [first, second] =>
    let equalities ← equalities? (withoutBrackets (trim after))
    return ⟨String.ofList first, String.ofList second, equalities⟩
  | _ => none

/-- The action of a descriptor: none, `1` or `tau` name no action. -/
def sync? (cs : List Char) : Option (Option (String × Direction)) :=
  if cs.isEmpty || cs == ['1'] || cs == ['t', 'a', 'u'] then some none
  else (Direction.splitLabel? (String.ofList cs)).map some

/-- The process and the location that a descriptor names. -/
def qualified? (cs : List Char) : Option (List Char × List Char) := do
  let (process, location) ← cutAt? ['.'] cs
  if isWord process && isWord location then some (process, location) else none

/-- The rule of a transition descriptor `P.A->P.B { select, sync, update }`. Commas after the second
belong to the update, and the update `1` makes no assignment. -/
def transition? (condition descriptor : List Char) : Option ActionRule := do
  let (edge, body) ← cutAt? ['\x7b'] descriptor
  let body ← beforeEnd? ['\x7d'] (trimEnd body)
  let (source, target) ← cutAt? ['-', '>'] (trim edge)
  let _ ← qualified? source
  let (process, destination) ← qualified? target
  let (_, afterSelect) ← cutAt? [','] body
  let (label, afterSync) ← cutAt? [','] afterSelect
  let sync ← sync? (trim label)
  let update := trim afterSync
  return {
    condition := String.ofList condition
    process := String.ofList process
    destination := String.ofList destination
    sync := sync
    update := if update == ['1'] then "" else String.ofList update }

/-- The meaning of a line. Only the descriptor of a transition is an error; other deviations make
the line malformed. -/
def classify (text : String) : Except StrategyError StrategyLine :=
  let line := trimEnd text.toList
  if line.isEmpty then .ok .blank
  else if let some rest := afterStart? headerMark line then
    match state? rest with
    | some state => .ok (.header state)
    | none => .ok (.malformed .header)
  else if let some rest := afterStart? delayMark line then
    match beforeEnd? delayEnd rest with
    | some condition =>
      if startsBlank rest then .ok (.rule (.delay (String.ofList (trim condition))))
      else .ok (.malformed .delay)
    | none => .ok (.malformed .delay)
  else if let some rest := afterStart? actionMark line then
    match cutAt? transitionMark rest with
    | some (condition, descriptor) =>
      if startsBlank rest then
        let descriptor := trim (withoutEnd skipMark descriptor)
        match transition? (trim condition) descriptor with
        | some found => .ok (.rule (.action found))
        | none => .error (.transition (String.ofList descriptor))
      else .ok (.malformed .action)
    | none => .ok (.malformed .action)
  else .ok (.malformed .unrecognised)

end StrategyLine

end TimedMutation
