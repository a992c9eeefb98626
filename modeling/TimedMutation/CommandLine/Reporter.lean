import TimedMutation.CommandLine.Host
import TimedMutation.Decimal.Layout
import TimedMutation.Mutation.Score

/-! Status lines on the standard error stream. -/

namespace TimedMutation.CommandLine

/-- How status lines look and which of them are left out. -/
structure Reporter where
  color : Bool
  quiet : Bool

inductive Status where
  | killed | survived | warning | info
  deriving DecidableEq, Repr

/-- The mark before a status line: a word, or a sign where colors are in use. -/
def Status.mark (color : Bool) : Status → String
  | killed => if color then "✓" else "KILLED"
  | survived => if color then "✗" else "SURVIVED"
  | warning => if color then "⚠" else "WARN"
  | info => if color then "ℹ" else "INFO"

namespace Reporter

/-- The lines of a status, each ended. A mutant that survived is reported in any case. -/
def line (r : Reporter) (status : Status) (message : String) : String :=
  if r.quiet && status != .survived then ""
  else status.mark r.color ++ " " ++ message ++ "\n"

def header (r : Reporter) (title : String) : String :=
  if r.quiet then ""
  else "\n" ++ (if r.color then title else "=== " ++ title ++ " ===") ++ "\n"

/-- Milliseconds as seconds with two digits after the point. -/
def seconds (milliseconds : Nat) : String :=
  let hundredths := (milliseconds + 5) / 10
  let rest := hundredths % 100
  Text.ofNat (hundredths / 100) ++ "." ++ (if rest < 10 then "0" else "") ++ Text.ofNat rest

/-- The summary of a run. It is left out of a quiet one in which nothing went amiss. -/
def summary (r : Reporter) (score : MutationScore) (errors milliseconds : Nat) : String :=
  let t := score.overall
  if r.quiet && score.survived == 0 && errors == 0 then ""
  else
    "\nMutation score " ++ Decimal.oneDecimal (score.ratio * 100.0) ++ "% over " ++
      Text.ofNat t.total ++ " mutants in " ++ seconds milliseconds ++ "s (" ++
      Text.ofNat t.killed ++ " killed, " ++ Text.ofNat score.survived ++ " survived, " ++
      Text.ofNat t.inconclusive ++ " inconclusive, " ++ Text.ofNat errors ++ " errors)\n"

end Reporter

end TimedMutation.CommandLine
