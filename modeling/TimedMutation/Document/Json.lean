import TimedMutation.Document.Basic
import TimedMutation.Decimal.Layout

/-! Documents in JSON. -/

namespace TimedMutation.Json

/-! ### Writing -/

def hexDigit (n : Nat) : Char := (Nat.digitChar n).toLower

/-- The escape of a character inside a string. -/
def escape (c : Char) : List Char :=
  match c with
  | '"' => ['\\', '"']
  | '\\' => ['\\', '\\']
  | '\x08' => ['\\', 'b']
  | '\x0c' => ['\\', 'f']
  | '\n' => ['\\', 'n']
  | '\r' => ['\\', 'r']
  | '\t' => ['\\', 't']
  | c =>
    if c.toNat < 0x20 then ['\\', 'u', '0', '0', hexDigit (c.toNat / 16), hexDigit (c.toNat % 16)]
    else [c]

def quoted (s : String) : String := String.ofList ('"' :: (s.toList.flatMap escape ++ ['"']))

/-- A number that is not finite has no form and is written as null. -/
def number (x : Float) : String :=
  if x.isFinite then Decimal.Layout.document.text x else "null"

def scalarText : Scalar → String
  | .null | .unreadable => "null"
  | .bool b => if b then "true" else "false"
  | .integer n => Text.ofInt n
  | .real x => number x
  | .text s | .plain s | .tagged _ _ s => quoted s

/-- A key is always a string. -/
def keyText (key : Scalar) : String :=
  match key with
  | .text s | .plain s | .tagged _ _ s => quoted s
  | key => quoted (scalarText key)

mutual

/-- The document on one line. -/
def compact : Document → String
  | .scalar s => scalarText s
  | .list items => "[" ++ String.intercalate "," (compactItems items) ++ "]"
  | .map entries => "\x7b" ++ String.intercalate "," (compactEntries entries) ++ "\x7d"

def compactItems : List Document → List String
  | [] => []
  | d :: ds => compact d :: compactItems ds

def compactEntries : List (Scalar × Document) → List String
  | [] => []
  | (key, d) :: rest => (keyText key ++ ":" ++ compact d) :: compactEntries rest

end

def indentation (depth : Nat) : String := String.ofList (List.replicate (2 * depth) ' ')

/-- Lines between an opening and a closing mark, two blanks deeper than these. -/
def block (depth : Nat) (opening closing : String) (items : List String) : String :=
  if items.isEmpty then opening ++ closing
  else
    opening ++ "\n" ++
      String.intercalate ",\n" (items.map fun item => indentation (depth + 1) ++ item) ++
      "\n" ++ indentation depth ++ closing

mutual

/-- The document with every item and entry on a line of its own. -/
def prettyAt (depth : Nat) : Document → String
  | .scalar s => scalarText s
  | .list items => block depth "[" "]" (prettyItems (depth + 1) items)
  | .map entries => block depth "\x7b" "\x7d" (prettyEntries (depth + 1) entries)

def prettyItems (depth : Nat) : List Document → List String
  | [] => []
  | d :: ds => prettyAt depth d :: prettyItems depth ds

def prettyEntries (depth : Nat) : List (Scalar × Document) → List String
  | [] => []
  | (key, d) :: rest => (keyText key ++ ": " ++ prettyAt depth d) :: prettyEntries depth rest

end

def pretty (d : Document) : String := prettyAt 0 d

/-! ### Reading -/

def isSpace (c : Char) : Bool := c == ' ' || c == '\t' || c == '\n' || c == '\r'

def skipSpaces (cs : List Char) : List Char := cs.dropWhile isSpace

/-- A character of a string, or a code unit that an escape names by its number. -/
inductive Piece where
  | char (c : Char)
  | unit (n : Nat)

/-- The pieces of a string up to its closing quote. -/
def pieces? : List Char → Option (List Piece × List Char)
  | [] => none
  | '"' :: cs => some ([], cs)
  | '\\' :: 'u' :: a :: b :: c :: d :: cs => do
    let n ← Text.nat? 16 [a, b, c, d]
    let (ps, rest) ← pieces? cs
    return (.unit n :: ps, rest)
  | '\\' :: e :: cs => do
    let c ← match e with
      | '"' => some '"'
      | '\\' => some '\\'
      | '/' => some '/'
      | 'b' => some '\x08'
      | 'f' => some '\x0c'
      | 'n' => some '\n'
      | 'r' => some '\r'
      | 't' => some '\t'
      | _ => none
    let (ps, rest) ← pieces? cs
    return (.char c :: ps, rest)
  | c :: cs =>
    if c.toNat < 0x20 || c == '\\' then none
    else do
      let (ps, rest) ← pieces? cs
      return (.char c :: ps, rest)

def isLeading (n : Nat) : Bool := 0xD800 ≤ n && n < 0xDC00

def isTrailing (n : Nat) : Bool := 0xDC00 ≤ n && n < 0xE000

/-- The characters of a string. Two surrogates in the right order make one character, and one alone
makes none. -/
def join? : List Piece → Option (List Char)
  | [] => some []
  | .char c :: ps => (join? ps).map (c :: ·)
  | .unit n :: .unit m :: ps =>
    if isLeading n then
      if isTrailing m then
        (join? ps).map (Char.ofNat (0x10000 + (n - 0xD800) * 0x400 + (m - 0xDC00)) :: ·)
      else none
    else if isTrailing n then none
    else (join? (.unit m :: ps)).map (Char.ofNat n :: ·)
  | .unit n :: ps =>
    if isLeading n || isTrailing n then none else (join? ps).map (Char.ofNat n :: ·)

def stringScalar (ps : List Piece) : Scalar :=
  match join? ps with
  | some cs => .text (String.ofList cs)
  | none => .unreadable

/-- Digits that must be there. -/
def someDigits? (cs : List Char) : Option (List Char × List Char) :=
  let digits := cs.takeWhile Decimal.isDigit
  if digits.isEmpty then none else some (digits, cs.dropWhile Decimal.isDigit)

/-- The digits before the point: zero alone, or digits that do not start with zero. -/
def wholeDigits? (cs : List Char) : Option (List Char × List Char) := do
  let (digits, rest) ← someDigits? cs
  if digits.head? == some '0' && 1 < digits.length then none else some (digits, rest)

def fractionDigits? : List Char → Option (List Char × List Char)
  | '.' :: cs => someDigits? cs
  | cs => some ([], cs)

def exponent? : List Char → Option (Option Int × List Char)
  | e :: cs =>
    if e == 'e' || e == 'E' then
      match cs with
      | '-' :: rest => do
        let (digits, rest) ← someDigits? rest
        return (some (-(Decimal.digitsValue digits : Int)), rest)
      | '+' :: rest => do
        let (digits, rest) ← someDigits? rest
        return (some (Decimal.digitsValue digits : Int), rest)
      | rest => do
        let (digits, rest) ← someDigits? rest
        return (some (Decimal.digitsValue digits : Int), rest)
    else some (none, e :: cs)
  | [] => some (none, [])

/-- A number. Without a fraction and an exponent it is an integer if 64 bits hold it; minus zero is
a double. -/
def number? (negative : Bool) (cs : List Char) : Option (Scalar × List Char) := do
  let (whole, rest) ← wholeDigits? cs
  let (part, rest) ← fractionDigits? rest
  let (exponent, rest) ← exponent? rest
  let value : Int := if negative then -(Decimal.digitsValue whole : Int) else Decimal.digitsValue whole
  let integral := part.isEmpty && exponent.isNone && !(negative && value == 0)
  if integral && (Text.isWord64 value || Text.isCount64 value) then return (.integer value, rest)
  else
    let x := Decimal.Numeral.toFloat
      ⟨Decimal.digitsValue (whole ++ part), exponent.getD 0 - part.length⟩
    return (if x.isFinite then .real (Decimal.withSign negative x) else .unreadable, rest)

/-- The single value that starts a text. -/
def scalar? : List Char → Option (Scalar × List Char)
  | 'n' :: 'u' :: 'l' :: 'l' :: cs => some (.null, cs)
  | 't' :: 'r' :: 'u' :: 'e' :: cs => some (.bool true, cs)
  | 'f' :: 'a' :: 'l' :: 's' :: 'e' :: cs => some (.bool false, cs)
  | '"' :: cs => (pieces? cs).map fun (ps, rest) => (stringScalar ps, rest)
  | '-' :: cs => number? true cs
  | cs => number? false cs

mutual

/-- The value that starts a text, for at most `budget` characters of structure. -/
def valueAt? : (budget : Nat) → List Char → Option (Document × List Char)
  | 0, _ => none
  | budget + 1, cs =>
    match skipSpaces cs with
    | '[' :: cs =>
      match skipSpaces cs with
      | ']' :: rest => some (.list [], rest)
      | cs => do
        let (items, rest) ← itemsAt? budget cs
        return (.list items, rest)
    | '\x7b' :: cs =>
      match skipSpaces cs with
      | '\x7d' :: rest => some (.map [], rest)
      | cs => do
        let (entries, rest) ← entriesAt? budget cs
        return (.map entries, rest)
    | cs => (scalar? cs).map fun (s, rest) => (.scalar s, rest)

/-- The items up to the end of a list. -/
def itemsAt? : (budget : Nat) → List Char → Option (List Document × List Char)
  | 0, _ => none
  | budget + 1, cs => do
    let (d, rest) ← valueAt? budget cs
    match skipSpaces rest with
    | ']' :: rest => return ([d], rest)
    | ',' :: rest =>
      let (ds, rest) ← itemsAt? budget rest
      return (d :: ds, rest)
    | _ => none

/-- The entries up to the end of a map. -/
def entriesAt? : (budget : Nat) → List Char → Option (List (Scalar × Document) × List Char)
  | 0, _ => none
  | budget + 1, cs => do
    match skipSpaces cs with
    | '"' :: cs =>
      let (ps, rest) ← pieces? cs
      match skipSpaces rest with
      | ':' :: rest =>
        let (d, rest) ← valueAt? budget rest
        match skipSpaces rest with
        | '\x7d' :: rest => return ([(stringScalar ps, d)], rest)
        | ',' :: rest =>
          let (es, rest) ← entriesAt? budget rest
          return ((stringScalar ps, d) :: es, rest)
        | _ => none
      | _ => none
    | _ => none

end

/-- The document that a whole text writes. -/
def read? (text : String) : Option Document :=
  let cs := text.toList
  match valueAt? (cs.length + 1) cs with
  | some (d, rest) => if (skipSpaces rest).isEmpty then some d else none
  | none => none

end TimedMutation.Json
