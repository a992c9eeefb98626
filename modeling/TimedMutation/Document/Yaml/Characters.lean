import TimedMutation.Text.Numeral

/-! Blanks, line breaks and the other characters with a meaning in YAML. -/

namespace TimedMutation.Yaml

def isBreak (c : Char) : Bool :=
  c == '\n' || c == '\r' || c == '\x85' || c == '\u2028' || c == '\u2029'

/-- A blank inside a line. -/
def isGap (c : Char) : Bool := c == ' ' || c == '\t'

def isGapOrBreak (c : Char) : Bool := isGap c || isBreak c

/-- Whether a text ends here or goes on with a blank or a line break. -/
def atEdge : List Char → Bool
  | [] => true
  | c :: _ => isGapOrBreak c

/-- Whether a line ends here or goes on with a comment. -/
def isLineEnd : List Char → Bool
  | [] => true
  | c :: _ => c == '#' || isBreak c

/-- The characters that may stand in a document. -/
def isAllowed (c : Char) : Bool :=
  let n := c.toNat
  n == 0x09 || n == 0x0A || n == 0x0D || (0x20 ≤ n && n ≤ 0x7E) || n == 0x85 ||
    (0xA0 ≤ n && n ≤ 0xFFFD) || 0x10000 ≤ n

/-- The characters that a quoted or plain text shows as they are. -/
def isPrintable (c : Char) : Bool :=
  let n := c.toNat
  n == 0x0A || (0x20 ≤ n && n ≤ 0x7E) || (0xA0 ≤ n && n ≤ 0xFFFD && n != 0xFEFF) || 0x10000 ≤ n

/-- Whether a line starts with the mark of a document's start or end. -/
def startsDocumentMark : List Char → Bool
  | '-' :: '-' :: '-' :: cs => atEdge cs
  | '.' :: '.' :: '.' :: cs => atEdge cs
  | _ => false

/-- A text without its first line break. -/
def dropBreak : List Char → List Char
  | '\r' :: '\n' :: cs => cs
  | _ :: cs => cs
  | [] => []

/-- The line breaks among the characters of a gap. All but the separators of lines and paragraphs
count as a line feed, and so do a carriage return and a line feed together. -/
def breaks : List Char → List Char
  | [] => []
  | '\r' :: '\n' :: cs => '\n' :: breaks cs
  | c :: cs =>
    if c == '\u2028' || c == '\u2029' then c :: breaks cs
    else if isBreak c then '\n' :: breaks cs
    else breaks cs

/-- What a gap inside a text of several lines stands for: itself within a line; one blank for one
line break; the further line breaks for several. -/
def fold (gap : List Char) : List Char :=
  match breaks gap with
  | [] => gap
  | ['\n'] => [' ']
  | '\n' :: more => more
  | kept => kept

/-- The number of characters after the last line break of a gap. -/
def columnAfter (gap : List Char) : Nat := (gap.reverse.takeWhile fun c => !isBreak c).length

end TimedMutation.Yaml
