import TimedMutation.Strategy.Line

/-! Strategies as text: blocks of a header and its rules, each ended by a blank line. -/

namespace TimedMutation

namespace Strategy

/-- What has been read before a line: the strategy so far, and the state of the block that the line
lies in. -/
structure Progress where
  strategy : Strategy
  block : Option StrategyState

def startsHeader (line : String) : Bool :=
  (Text.afterStart? StrategyLine.headerMark line.toList).isSome

/-- One line read. Outside a block only a header counts; a rule belongs to the block around it. -/
def Progress.read (p : Progress) (number : Nat) (line : String) : Except StrategyError Progress :=
  if p.block.isNone && !startsHeader line then .ok p
  else
    match StrategyLine.classify line with
    | .error e => .error e
    | .ok .blank => .ok { p with block := none }
    | .ok (.header state) => .ok ⟨p.strategy.declare state, some state⟩
    | .ok (.rule rule) =>
      match p.block with
      | some state => .ok { p with strategy := p.strategy.append state rule }
      | none => .ok p
    | .ok (.malformed _) => .error (.line number line)

/-- The lines of a text from `number` on. -/
def Progress.readAll (p : Progress) (number : Nat) : List String → Except StrategyError Progress
  | [] => .ok p
  | line :: lines => do (← p.read number line).readAll (number + 1) lines

def ofLines (lines : List String) : Except StrategyError Strategy :=
  (Progress.readAll ⟨empty, none⟩ 1 lines).map Progress.strategy

def ofText (text : String) : Except StrategyError Strategy :=
  ofLines ((Text.lines text.toList).map String.ofList)

end Strategy

end TimedMutation
