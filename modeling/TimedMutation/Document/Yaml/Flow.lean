import TimedMutation.Document.Yaml.Characters

/-! Plain and quoted texts of a YAML document. -/

namespace TimedMutation.Yaml

/-! ### Plain texts -/

def isFlowMark (c : Char) : Bool := c == ',' || c == '[' || c == ']' || c == '\x7b' || c == '\x7d'

/-- The longest run of a plain text without a gap. A colon before an edge ends it, and inside
brackets so does a mark of the brackets; there, a colon right before such a mark is refused. -/
def plainRun? (inFlow : Bool) : List Char → Option (List Char × List Char)
  | [] => some ([], [])
  | c :: cs =>
    if isGapOrBreak c then some ([], c :: cs)
    else if inFlow && c == ':' && (cs.head?.map fun d => isFlowMark d || d == '?').getD false then
      none
    else if (c == ':' && atEdge cs) || (inFlow && isFlowMark c) then some ([], c :: cs)
    else (plainRun? inFlow cs).map fun (run, rest) => (c :: run, rest)

/-- Whether a tab stands where a continued line still has to be indented. -/
def tabIndents (indent : Int) (column : Option Nat) : List Char → Bool
  | [] => false
  | c :: cs =>
    if isBreak c then tabIndents indent (some 0) cs
    else
      match column with
      | none => tabIndents indent none cs
      | some n => (c == '\t' && (n : Int) < indent) || tabIndents indent (some (n + 1)) cs

/-- A plain text: its runs joined by the gaps between them. Outside brackets a line that is indented
less than `indent` ends it. The last component tells whether a line break came after the last
run. -/
def plain? (inFlow : Bool) (indent : Int) :
    (budget : Nat) → (column : Nat) → (gap : List Char) → (broken : Bool) → List Char →
      Option (List Char × List Char × Bool)
  | 0, _, _, broken, cs => some ([], cs, broken)
  | budget + 1, column, gap, broken, cs =>
    if (column == 0 && startsDocumentMark cs) || cs.head? == some '#' then some ([], cs, broken)
    else do
      let (run, after) ← plainRun? inFlow cs
      let text := if run.isEmpty then [] else fold gap ++ run
      let broken := broken && run.isEmpty
      let gap := after.takeWhile isGapOrBreak
      if gap.isEmpty then return (text, after, broken)
      else if tabIndents indent none gap then none
      else
        let next := after.dropWhile isGapOrBreak
        let broken := broken || gap.any isBreak
        let column :=
          if gap.any isBreak then columnAfter gap else column + run.length + gap.length
        if !inFlow && (column : Int) < indent then return (text, next, broken)
        else
          let (more, rest, broken) ← plain? inFlow indent budget column gap broken next
          return (text ++ more, rest, broken)

/-! ### Quoted texts -/

/-- The character that a number of hexadecimal digits names. -/
def named? (digits : Nat) (cs : List Char) : Option (Char × List Char) := do
  let n ← Text.nat? 16 (cs.take digits)
  if cs.length < digits || (0xD800 ≤ n && n ≤ 0xDFFF) || 0x10FFFF < n then none
  else some (Char.ofNat n, cs.drop digits)

/-- The character that an escape stands for, after its backslash. -/
def escape? : List Char → Option (Char × List Char)
  | '0' :: cs => some ('\x00', cs)
  | 'a' :: cs => some ('\x07', cs)
  | 'b' :: cs => some ('\x08', cs)
  | 't' :: cs => some ('\t', cs)
  | '\t' :: cs => some ('\t', cs)
  | 'n' :: cs => some ('\n', cs)
  | 'v' :: cs => some ('\x0b', cs)
  | 'f' :: cs => some ('\x0c', cs)
  | 'r' :: cs => some ('\r', cs)
  | 'e' :: cs => some ('\x1b', cs)
  | ' ' :: cs => some (' ', cs)
  | '"' :: cs => some ('"', cs)
  | '/' :: cs => some ('/', cs)
  | '\\' :: cs => some ('\\', cs)
  | 'N' :: cs => some ('\x85', cs)
  | '_' :: cs => some ('\xa0', cs)
  | 'L' :: cs => some ('\u2028', cs)
  | 'P' :: cs => some ('\u2029', cs)
  | 'x' :: cs => named? 2 cs
  | 'u' :: cs => named? 4 cs
  | 'U' :: cs => named? 8 cs
  | _ => none

/-- The longest run of a quoted text without a gap, up to its closing quote. The last component
tells whether an escaped line break ended it. -/
def quotedRun? (quote : Char) : (budget : Nat) → List Char → Option (List Char × List Char × Bool)
  | 0, cs => some ([], cs, false)
  | _ + 1, [] => some ([], [], false)
  | budget + 1, c :: cs =>
    let go (d : Char) (rest : List Char) :=
      (quotedRun? quote budget rest).map fun (run, rest, escaped) => (d :: run, rest, escaped)
    if isGapOrBreak c then some ([], c :: cs, false)
    else if c == quote then
      match cs with
      | d :: rest => if quote == '\'' && d == '\'' then go '\'' rest else some ([], c :: cs, false)
      | [] => some ([], [c], false)
    else if quote == '"' && c == '\\' then
      if (cs.head?.map isBreak).getD false then some ([], dropBreak cs, true)
      else
        match escape? cs with
        | some (d, rest) => go d rest
        | none => none
    else go c cs

/-- A quoted text up to its closing quote: its runs joined by the gaps between them. No line of it
may start with the mark of a document's start or end. -/
def quoted? (quote : Char) : (budget : Nat) → List Char → Option (List Char × List Char)
  | 0, _ => none
  | budget + 1, cs => do
    let (run, after, escaped) ← quotedRun? quote cs.length cs
    if after.head? == some quote then return (run, after.drop 1)
    else
      let gap := after.takeWhile isGapOrBreak
      let next := after.dropWhile isGapOrBreak
      let joined := if escaped then breaks gap else fold gap
      let startsLine := if gap.isEmpty then escaped else columnAfter gap == 0
      if next.isEmpty || (startsLine && startsDocumentMark next) then none
      else
        let (more, rest) ← quoted? quote budget next
        return (run ++ joined ++ more, rest)

/-! ### Literal and folded texts -/

/-- What happens to the line breaks at the end of a literal or folded text. -/
inductive Chomping where
  | clip | strip | keep
  deriving DecidableEq

/-- The number of columns and the chomping that follow the mark of a literal or folded text, in
either order. -/
def blockHeader? (cs : List Char) : Option (Option Nat × Chomping × List Char) := do
  let chomping (cs : List Char) : Chomping × List Char :=
    match cs with
    | '+' :: rest => (.keep, rest)
    | '-' :: rest => (.strip, rest)
    | rest => (.clip, rest)
  let width? (cs : List Char) : Option (Option Nat × List Char) :=
    match cs with
    | d :: rest =>
      if d == '0' then none
      else if '1' ≤ d && d ≤ '9' then some (some (d.toNat - 0x30), rest)
      else some (none, cs)
    | [] => some (none, [])
  let (first, rest) := chomping cs
  let (width, rest) ← width? rest
  let (second, rest) := if first = .clip then chomping rest else (first, rest)
  let rest := rest.dropWhile isGap
  let rest := if rest.head? == some '#' then rest.dropWhile fun c => !isBreak c else rest
  if rest.isEmpty then return (width, second, rest)
  else if (rest.head?.map isBreak).getD false then return (width, second, dropBreak rest)
  else none

/-- The blank lines and the indentation before a line of text: the line breaks, the column reached,
the greatest column of a blank line, and what follows. Without a known indentation every blank
counts to it. -/
def leadingLines? (indent : Option Nat) :
    (budget : Nat) → (widest : Nat) → List Char → Option (List Char × Nat × Nat × List Char)
  | 0, _, _ => none
  | budget + 1, widest, cs =>
    let blanks := (cs.takeWhile (· == ' ')).length
    let column := match indent with
      | none => blanks
      | some n => min n blanks
    let after := cs.drop column
    let widest := max widest column
    let short := match indent with
      | none => true
      | some n => decide (column < n)
    if short && after.head? == some '\t' then none
    else
      match after with
      | c :: _ =>
        if isBreak c then do
          let (bs, column, widest, rest) ← leadingLines? indent budget widest (dropBreak after)
          return (breaks [c] ++ bs, column, widest, rest)
        else some ([], column, widest, after)
      | [] => some ([], column, widest, [])

/-- The lines of a literal or folded text from the column that they share. `pending` is the line
break before them and `spaced` tells whether the line before starts with a blank. -/
def blockLines? (folded : Bool) (indent : Nat) :
    (budget : Nat) → (pending trailing : List Char) → (spaced : Bool) → (column : Nat) →
      List Char → Option (List Char × List Char × List Char × List Char)
  | 0, _, _, _, _, _ => none
  | budget + 1, pending, trailing, spaced, column, cs =>
    if column != indent || cs.isEmpty then some ([], pending, trailing, cs)
    else do
      let blank := (cs.head?.map isGap).getD false
      let join :=
        if folded && pending == ['\n'] && !spaced && !blank then
          if trailing.isEmpty then [' '] else []
        else pending
      let line := cs.takeWhile fun c => !isBreak c
      let after := cs.dropWhile fun c => !isBreak c
      let broken := match after with
        | c :: _ => breaks [c]
        | [] => []
      let (bs, column, _, rest) ← leadingLines? (some indent) (cs.length + 1) 0 (dropBreak after)
      let (text, pending, last, rest) ←
        blockLines? folded indent budget broken bs blank column rest
      return (join ++ trailing ++ line ++ text, pending, last, rest)

/-- A literal or folded text after its mark, inside a collection of indentation `parent`. -/
def block? (folded : Bool) (parent : Int) (cs : List Char) : Option (List Char × List Char) := do
  let (width, chomping, after) ← blockHeader? cs
  let known := width.map fun n => if 0 ≤ parent then parent.toNat + n else n
  let (bs, column, widest, rest) ← leadingLines? known (cs.length + 1) 0 after
  let indent := known.getD (max (max widest (parent + 1).toNat) 1)
  let (text, pending, trailing, rest) ←
    blockLines? folded indent (cs.length + 1) [] bs false column rest
  let tail :=
    match chomping with
    | .strip => []
    | .clip => pending
    | .keep => pending ++ trailing
  return (text ++ tail, rest)

end TimedMutation.Yaml
