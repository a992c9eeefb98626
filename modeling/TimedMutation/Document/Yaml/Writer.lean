import TimedMutation.Document.Yaml.Characters
import TimedMutation.Document.Basic
import TimedMutation.Decimal.Layout

/-! Documents in YAML: block style, two blanks of indentation, and for each text the plainest form
that reads back as that text. -/

namespace TimedMutation.Yaml

/-- What decides between the forms of a text. -/
structure Traits where
  /-- A mark at its start, or a colon or hash sign with a blank on the right side of it. -/
  marked : Bool
  unprintable : Bool
  broken : Bool
  startsWithBlank : Bool
  endsWithBlank : Bool
  endsWithSpace : Bool
  /-- A space right after a line break. -/
  breakSpace : Bool
  /-- A space right before a line break. -/
  spaceBreak : Bool

/-- Whether a character starts something other than a plain text. -/
def startsOther (c : Char) (cs : List Char) : Bool :=
  ['#', ',', '[', ']', '\x7b', '\x7d', '&', '*', '!', '|', '>', '\'', '"', '%', '@', '\x60'].contains c ||
    ((c == '?' || c == ':' || c == '-') && atEdge cs)

/-- Whether a colon before an edge or a hash sign after a blank stands among the characters after
the first one. -/
def hasInnerMark : (afterBlank : Bool) → List Char → Bool
  | _, [] => false
  | afterBlank, c :: cs =>
    (c == ':' && atEdge cs) || (c == '#' && afterBlank) || hasInnerMark (isGapOrBreak c) cs

/-- Whether two characters of two kinds stand next to each other. -/
def hasPair (first second : Char → Bool) : List Char → Bool
  | c :: d :: cs => (first c && second d) || hasPair first second (d :: cs)
  | _ => false

def startsWithMark : List Char → Bool
  | '-' :: '-' :: '-' :: _ => true
  | '.' :: '.' :: '.' :: _ => true
  | c :: cs => startsOther c cs || hasInnerMark (isGapOrBreak c) cs
  | [] => false

def Traits.of (cs : List Char) : Traits :=
  let isSpace (c : Char) := c == ' '
  let blank (c : Option Char) := (c.map fun c => isSpace c || isBreak c).getD false
  { marked := startsWithMark cs
    unprintable := cs.any fun c => !isPrintable c
    broken := cs.any isBreak
    startsWithBlank := blank cs.head?
    endsWithBlank := blank cs.getLast?
    endsWithSpace := cs.getLast? == some ' '
    breakSpace := hasPair isBreak isSpace cs
    spaceBreak := hasPair isSpace isBreak cs }

def hexText (digits n : Nat) : List Char :=
  let ds := (Nat.toDigits 16 n).map Char.toUpper
  List.replicate (digits - ds.length) '0' ++ ds

/-- A character between double quotes. -/
def doubleQuotedChar (c : Char) : List Char :=
  if isPrintable c && !isBreak c && c != '"' && c != '\\' then [c]
  else
    '\\' :: match c with
      | '\x00' => ['0']
      | '\x07' => ['a']
      | '\x08' => ['b']
      | '\t' => ['t']
      | '\n' => ['n']
      | '\x0b' => ['v']
      | '\x0c' => ['f']
      | '\r' => ['r']
      | '\x1b' => ['e']
      | '"' => ['"']
      | '\\' => ['\\']
      | '\x85' => ['N']
      | '\u2028' => ['L']
      | '\u2029' => ['P']
      | c =>
        let n := c.toNat
        if n ≤ 0xFF then 'x' :: hexText 2 n
        else if n ≤ 0xFFFF then 'u' :: hexText 4 n
        else 'U' :: hexText 8 n

def doubleQuoted (cs : List Char) : List Char :=
  '"' :: (cs.flatMap doubleQuotedChar ++ ['"'])

def blanks (n : Nat) : List Char := List.replicate n ' '

/-- The characters between single quotes; what stands on a line that a separator starts is indented,
and so is the closing quote. -/
def singleQuotedBody (indent : Nat) : (startsLine : Bool) → List Char → List Char
  | startsLine, [] => if startsLine then blanks indent else []
  | startsLine, c :: cs =>
    if isBreak c then c :: singleQuotedBody indent true cs
    else
      (if startsLine then blanks indent else []) ++ (if c == '\'' then ['\'', '\''] else [c]) ++
        singleQuotedBody indent false cs

def singleQuoted (indent : Nat) (cs : List Char) : List Char :=
  '\'' :: (singleQuotedBody indent false cs ++ ['\''])

/-- The lines of a literal text; the empty ones are not indented. -/
def literalBody (indent : Nat) : (startsLine : Bool) → List Char → List Char
  | _, [] => []
  | startsLine, c :: cs =>
    if isBreak c then c :: literalBody indent true cs
    else (if startsLine then blanks indent else []) ++ c :: literalBody indent false cs

/-- What follows the mark of a literal text: the indentation if the text itself starts with a blank,
and how many line breaks at its end belong to it if that is not one. -/
def literalHints (cs : List Char) : List Char :=
  let width := if (cs.head?.map fun c => c == ' ' || isBreak c).getD false then ['2'] else []
  let chomping :=
    match cs.reverse with
    | [] => ['-']
    | c :: before =>
      if !isBreak c then ['-']
      else if before.isEmpty || (before.head?.map isBreak).getD false then ['+']
      else []
  width ++ chomping

/-- A literal text. A line break at its end ends the last line of the literal. -/
def literal (indent : Nat) (cs : List Char) : List Char :=
  '|' :: (literalHints cs ++ '\n' :: literalBody indent true cs)

/-- A text as whole lines. -/
def endLine (cs : List Char) : List Char :=
  if (cs.getLast?.map isBreak).getD false then cs else cs ++ ['\n']

/-- A text as a value inside a collection of which the next level is indented by `indent`. A text of
several lines is literal; one that would be read as something else is quoted; every other one is
plain where it can be. -/
def textForm (indent : Nat) (s : String) : List Char :=
  let cs := s.toList
  let t := Traits.of cs
  let plainAllowed := !(t.startsWithBlank || t.endsWithBlank || t.breakSpace || t.spaceBreak ||
    t.unprintable || t.broken || t.marked)
  let singleAllowed := !(t.breakSpace || t.spaceBreak || t.unprintable)
  let literalAllowed := !(t.endsWithSpace || t.spaceBreak || t.unprintable)
  if cs.contains '\n' then
    if literalAllowed then literal indent cs else doubleQuoted cs
  else if plainAllowed && !Scalar.Plain.isAmbiguous s then cs
  else if singleAllowed then singleQuoted indent cs
  else doubleQuoted cs

def scalarForm (indent : Nat) : Scalar → List Char
  | .null | .unreadable => "null".toList
  | .bool b => if b then "true".toList else "false".toList
  | .integer n => (Text.ofInt n).toList
  | .real x => (Decimal.Layout.document.text x).toList
  | .text s | .plain s | .tagged _ _ s => textForm indent s

mutual

/-- The text of a node that follows a key or the dash of an item, from the character after the colon
or the dash to the end of its last line. A list under a key has the indentation of that key; after a
dash the first item or entry stands on the same line. -/
def afterKey (indent : Nat) : Document → List Char
  | .scalar s => ' ' :: scalarForm (indent + 2) s
  | .list items =>
    if items.isEmpty then [' ', '[', ']'] else '\n' :: (blanks indent ++ itemLines indent items)
  | .map entries =>
    if entries.isEmpty then [' ', '\x7b', '\x7d']
    else '\n' :: (blanks (indent + 2) ++ entryLines (indent + 2) entries)

def afterDash (indent : Nat) : Document → List Char
  | .scalar s => ' ' :: scalarForm (indent + 2) s
  | .list items =>
    if items.isEmpty then [' ', '[', ']'] else ' ' :: itemLines (indent + 2) items
  | .map entries =>
    if entries.isEmpty then [' ', '\x7b', '\x7d'] else ' ' :: entryLines (indent + 2) entries

/-- The items of a list, of which the first stands at its place already. -/
def itemLines (indent : Nat) : List Document → List Char
  | [] => []
  | d :: ds =>
    let first := '-' :: afterDash indent d
    if ds.isEmpty then first else endLine first ++ blanks indent ++ itemLines indent ds

/-- The entries of a map, of which the first stands at its place already. -/
def entryLines (indent : Nat) : List (Scalar × Document) → List Char
  | [] => []
  | (key, d) :: rest =>
    let first := scalarForm indent key ++ ':' :: afterKey indent d
    if rest.isEmpty then first else endLine first ++ blanks indent ++ entryLines indent rest

end

/-- A whole document. -/
def write (d : Document) : String :=
  String.ofList (endLine (match d with
    | .scalar s => scalarForm 2 s
    | .list items => if items.isEmpty then ['[', ']'] else itemLines 0 items
    | .map entries => if entries.isEmpty then ['\x7b', '\x7d'] else entryLines 0 entries))

end TimedMutation.Yaml
