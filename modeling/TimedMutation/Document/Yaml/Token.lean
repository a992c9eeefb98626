import TimedMutation.Document.Yaml.Flow
import TimedMutation.Document.Yaml.Tag

/-!
The tokens of a YAML document. Indentation opens and closes block collections, and a node that a
colon follows on its line turns out to be a key only then, so its marks are put in before it.
The names of anchors are replaced by numbers in the order of the text.
-/

namespace TimedMutation.Yaml

inductive Token where
  | blockList | blockMap | blockEnd
  | flowList | flowListEnd | flowMap | flowMapEnd
  | item | comma | key | value
  | scalar (style : Style) (s : String)
  | anchor (number : Nat)
  /-- The node of an anchor once more. -/
  | again (number : Nat)
  | tag (text : String)
  | documentStart | documentEnd
  /-- A directive; `version` tells the version of the format from the meaning of a handle. -/
  | directive (version : Bool)

/-- A place in the text. `bytes` counts the bytes before it. -/
structure Cursor where
  rest : List Char
  line : Nat
  column : Nat
  bytes : Nat

namespace Cursor

def step (p : Cursor) : Cursor :=
  match p.rest with
  | [] => p
  | c :: cs =>
    if isBreak c && !(c == '\r' && cs.head? == some '\n') then
      ⟨cs, p.line + 1, 0, p.bytes + c.utf8Size⟩
    else ⟨cs, p.line, p.column + 1, p.bytes + c.utf8Size⟩

def advance (p : Cursor) : Nat → Cursor
  | 0 => p
  | n + 1 => p.step.advance n

/-- The place at which `rest` is left of the text. -/
def moveTo (p : Cursor) (rest : List Char) : Cursor := p.advance (p.rest.length - rest.length)

end Cursor

/-- A node that may turn out to be a key: the number of its first token and its place. Where a line
of a block map starts, it must turn out to be one. -/
structure Key where
  token : Nat
  required : Bool
  line : Nat
  column : Nat
  bytes : Nat

structure Scanner where
  at' : Cursor
  /-- The tokens so far, the last one first. -/
  tokens : List Token := []
  /-- The indentation of the innermost block collection, and those around it. -/
  indent : Int := -1
  outer : List Int := []
  /-- The depth of brackets. -/
  depth : Nat := 0
  keyAllowed : Bool := true
  /-- The possible key at each depth of brackets, the innermost first. -/
  keys : List (Option Key) := [none]
  /-- The names of the anchors with their numbers, the last one first. -/
  anchors : List (String × Nat) := []
  /-- What directives say that handles stand for. -/
  handles : Handles := []

namespace Scanner

def emit (s : Scanner) (t : Token) : Scanner := { s with tokens := t :: s.tokens }

/-- Put a token before the token with a number. -/
def emitBefore (s : Scanner) (number : Nat) (t : Token) : Scanner :=
  { s with tokens := s.tokens.insertIdx (s.tokens.length - number) t }

def inFlow (s : Scanner) : Bool := s.depth != 0

def skip (s : Scanner) (n : Nat) : Scanner := { s with at' := s.at'.advance n }

/-- Give up the possible key of this depth. -/
def dropKey? (s : Scanner) : Option Scanner :=
  match s.keys with
  | some k :: ks => if k.required then none else some { s with keys := none :: ks }
  | _ => some s

/-- Note that a node starts here that may be a key. -/
def noteKey? (s : Scanner) : Option Scanner := do
  if s.keyAllowed then
    let required := !s.inFlow && s.indent == (s.at'.column : Int)
    let s ← s.dropKey?
    let k := Key.mk s.tokens.length required s.at'.line s.at'.column s.at'.bytes
    return { s with keys := some k :: s.keys.drop 1 }
  else return s

/-- Give up the keys of which the line has ended or which have grown beyond 1024 bytes. -/
def dropStaleKeys? (s : Scanner) : Option Scanner := do
  let keys ← s.keys.mapM fun key =>
    match key with
    | some k =>
      if k.line < s.at'.line || k.bytes + 1024 < s.at'.bytes then
        if k.required then none else some none
      else some (some k)
    | none => some none
  return { s with keys }

/-- Open a block collection at a column that is deeper than the one around it. -/
def openBlock (s : Scanner) (column : Nat) (number : Nat) (t : Token) : Scanner :=
  if s.inFlow || (column : Int) ≤ s.indent then s
  else { (s.emitBefore number t) with indent := column, outer := s.indent :: s.outer }

/-- Close the block collections that are deeper than a column. -/
def closeBlocks (column : Int) : (around : List Int) → Scanner → Scanner
  | [], s => s
  | i :: is, s =>
    if column < s.indent then
      closeBlocks column is { (s.emit .blockEnd) with indent := i, outer := is }
    else s

def leaveTo (s : Scanner) (column : Int) : Scanner :=
  if s.inFlow then s else closeBlocks column s.outer s

/-- Skip blanks, comments and line breaks before a token, and a mark of the byte order where a line
starts. A line break outside brackets allows a key. -/
def skipToToken : (budget : Nat) → Scanner → Scanner
  | 0, s => s
  | budget + 1, s =>
    match s.at'.rest with
    | [] => s
    | c :: cs =>
      if c == ' ' || (c == '\t' && (s.inFlow || !s.keyAllowed)) ||
          (c == '\ufeff' && s.at'.column == 0) then
        skipToToken budget (s.skip 1)
      else if c == '#' then
        skipToToken budget
          { s with at' := s.at'.moveTo ((c :: cs).dropWhile fun c => !isBreak c) }
      else if isBreak c then
        let s := { s with at' := s.at'.moveTo (dropBreak (c :: cs)) }
        skipToToken budget (if s.inFlow then s else { s with keyAllowed := true })
      else s

def openFlow? (s : Scanner) (t : Token) : Option Scanner := do
  let s ← s.noteKey?
  return { ((s.emit t).skip 1) with depth := s.depth + 1, keyAllowed := true, keys := none :: s.keys }

def closeFlow? (s : Scanner) (t : Token) : Option Scanner := do
  let s ← s.dropKey?
  let s := if s.inFlow then { s with depth := s.depth - 1, keys := s.keys.drop 1 } else s
  return { ((s.emit t).skip 1) with keyAllowed := false }

def comma? (s : Scanner) : Option Scanner := do
  let s ← s.dropKey?
  return { ((s.emit .comma).skip 1) with keyAllowed := true }

def item? (s : Scanner) : Option Scanner := do
  if !s.inFlow && !s.keyAllowed then none
  let s := s.openBlock s.at'.column s.tokens.length .blockList
  let s ← s.dropKey?
  return { ((s.emit .item).skip 1) with keyAllowed := true }

def key? (s : Scanner) : Option Scanner := do
  if !s.inFlow && !s.keyAllowed then none
  let s := s.openBlock s.at'.column s.tokens.length .blockMap
  let s ← s.dropKey?
  return { ((s.emit .key).skip 1) with keyAllowed := !s.inFlow }

def value? (s : Scanner) : Option Scanner :=
  match s.keys with
  | some k :: ks =>
    let s := (s.emitBefore k.token .key).openBlock k.column k.token .blockMap
    some { ((s.emit .value).skip 1) with keys := none :: ks, keyAllowed := false }
  | _ =>
    if !s.inFlow && !s.keyAllowed then none
    else
      let s := s.openBlock s.at'.column s.tokens.length .blockMap
      some { ((s.emit .value).skip 1) with keyAllowed := !s.inFlow }

def documentMark? (s : Scanner) (t : Token) : Option Scanner := do
  let s ← (s.leaveTo (-1)).dropKey?
  return { ((s.emit t).skip 3) with keyAllowed := false }

/-- A number of at most nine digits. -/
def versionNumber? (cs : List Char) : Option (Nat × List Char) := do
  let digits := cs.takeWhile Decimal.isDigit
  if 9 < digits.length then none
  else return (← Text.nat? 10 digits, cs.dropWhile Decimal.isDigit)

/-- Whether a version is one of the two that can be read, with at most a comment after it. -/
def isKnownVersion (cs : List Char) : Bool :=
  match versionNumber? (cs.dropWhile isGap) with
  | some (1, '.' :: cs) =>
    match versionNumber? cs with
    | some (n, rest) => (n == 1 || n == 2) && isLineEnd (rest.dropWhile isGap)
    | none => false
  | _ => false

/-- Note what a handle stands for, which may be said once only. -/
def giveHandle? (s : Scanner) (cs : List Char) : Option Scanner := do
  let (handle, octets) ← handleEntry? cs
  if (s.handles.lookup handle).isSome then none
  else return { s with handles := (handle, octets) :: s.handles }

/-- A directive: the version of the format, or what a handle stands for. It takes its
line break with it, so no key may begin on the blanks of the next line. -/
def directive? (s : Scanner) : Option Scanner := do
  let s ← (s.leaveTo (-1)).dropKey?
  let line := (s.at'.rest.drop 1).takeWhile fun c => !isBreak c
  let name := line.takeWhile fun c => !isGap c
  let values := line.drop name.length
  let version := name == "YAML".toList
  let s ←
    if version then if isKnownVersion values then some s else none
    else if name == "TAG".toList then s.giveHandle? values
    else none
  let rest := dropBreak (s.at'.rest.dropWhile fun c => !isBreak c)
  return { (s.emit (.directive version)) with at' := s.at'.moveTo rest, keyAllowed := false }

def anchor? (s : Scanner) : Option Scanner := do
  let s ← s.noteKey?
  let (name, rest) ← anchorName? (s.at'.rest.drop 1)
  let number := s.anchors.length
  return { (s.emit (.anchor number)) with
    at' := s.at'.moveTo rest, keyAllowed := false, anchors := (name, number) :: s.anchors }

/-- The node of the last anchor with a name. -/
def again? (s : Scanner) : Option Scanner := do
  let s ← s.noteKey?
  let (name, rest) ← anchorName? (s.at'.rest.drop 1)
  let number ← s.anchors.lookup name
  return { (s.emit (.again number)) with at' := s.at'.moveTo rest, keyAllowed := false }

def tag? (s : Scanner) : Option Scanner := do
  let s ← s.noteKey?
  let (tag, rest) ← Tag.ofText? s.inFlow s.at'.rest
  let text ← tag.text? s.handles
  return { (s.emit (.tag text)) with at' := s.at'.moveTo rest, keyAllowed := false }

def blockText? (s : Scanner) (folded : Bool) : Option Scanner := do
  let s ← s.dropKey?
  let (text, rest) ← block? folded s.indent (s.at'.rest.drop 1)
  let style := if folded then .quoted else .literal
  return { (s.emit (.scalar style (String.ofList text))) with
    at' := s.at'.moveTo rest, keyAllowed := true }

def quotedText? (s : Scanner) (quote : Char) : Option Scanner := do
  let s ← s.noteKey?
  let cs := s.at'.rest.drop 1
  let (text, rest) ← quoted? quote (cs.length + 1) cs
  return { (s.emit (.scalar .quoted (String.ofList text))) with
    at' := s.at'.moveTo rest, keyAllowed := false }

def plainText? (s : Scanner) : Option Scanner := do
  let s ← s.noteKey?
  let cs := s.at'.rest
  let (text, rest, broken) ←
    plain? s.inFlow (s.indent + 1) (cs.length + 1) s.at'.column [] false cs
  return { (s.emit (.scalar .plain (String.ofList text))) with
    at' := s.at'.moveTo rest, keyAllowed := broken }

/-- Whether a plain text may start with a character. -/
def startsPlain (inFlow : Bool) (c : Char) (cs : List Char) : Bool :=
  let marks := ['-', '?', ':', ',', '[', ']', '\x7b', '\x7d', '#', '&', '*', '!', '|', '>', '\'',
    '"', '%', '@', '\x60']
  !(isGapOrBreak c || marks.contains c) ||
    (c == '-' && !((cs.head?.map isGap).getD false)) ||
    (!inFlow && (c == '?' || c == ':') && !atEdge cs)

/-- Read the next token or tokens. -/
def next? (s : Scanner) (c : Char) (cs : List Char) : Option Scanner :=
  if s.at'.column == 0 && c == '%' then s.directive?
  else if s.at'.column == 0 && startsDocumentMark (c :: cs) then
    s.documentMark? (if c == '-' then .documentStart else .documentEnd)
  else
    match c with
    | '[' => s.openFlow? .flowList
    | '\x7b' => s.openFlow? .flowMap
    | ']' => s.closeFlow? .flowListEnd
    | '\x7d' => s.closeFlow? .flowMapEnd
    | ',' => s.comma?
    | '&' => s.anchor?
    | '*' => s.again?
    | '!' => s.tag?
    | '\'' => s.quotedText? '\''
    | '"' => s.quotedText? '"'
    | _ =>
      if c == '-' && atEdge cs then s.item?
      else if c == '?' && (s.inFlow || atEdge cs) then s.key?
      else if c == ':' && (s.inFlow || atEdge cs) then s.value?
      else if c == '|' && !s.inFlow then s.blockText? false
      else if c == '>' && !s.inFlow then s.blockText? true
      else if startsPlain s.inFlow c cs then s.plainText?
      else none

/-- Read all tokens; each takes at least one character. -/
def run? : (budget : Nat) → Scanner → Option Scanner
  | 0, _ => none
  | budget + 1, s => do
    let s := skipToToken (s.at'.rest.length + 1) s
    let s ← s.dropStaleKeys?
    let s := s.leaveTo s.at'.column
    match s.at'.rest with
    | [] => (s.leaveTo (-1)).dropKey?
    | c :: cs => run? budget (← s.next? c cs)

end Scanner

/-- The tokens of a text. -/
def tokens? (text : String) : Option (List Token) := do
  let cs := text.toList
  if cs.all isAllowed then
    let s ← Scanner.run? (cs.length + 1) { at' := ⟨cs, 0, 0, 0⟩ }
    return s.tokens.reverse
  else none

end TimedMutation.Yaml
