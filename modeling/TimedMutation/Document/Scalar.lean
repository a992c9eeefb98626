import TimedMutation.Decimal.Read

/-! The single values of a document and what each can be read as. -/

namespace TimedMutation

/-- How a text is written: without quotes, with its lines as they are, or in another way that marks
it as a text. -/
inductive Style where
  | plain
  | literal
  | quoted

/-- A single value. A document that writes strings without quotes leaves their kind to the reader;
such a value is `plain`. -/
inductive Scalar where
  | null
  | bool (b : Bool)
  | integer (n : Int)
  | real (x : Float)
  | text (s : String)
  | plain (s : String)
  /-- A text under a tag. -/
  | tagged (tag : String) (style : Style) (s : String)
  /-- Well-formed in its document, but without a value: a number beyond every double, or a string
  with half of a surrogate pair. -/
  | unreadable

namespace Scalar

/-! What an unquoted text reads as. -/

namespace Plain

def isNull (s : String) : Bool :=
  s == "" || s == "~" || s == "null" || s == "Null" || s == "NULL"

def bool? (s : String) : Option Bool :=
  if s == "true" || s == "True" || s == "TRUE" then some true
  else if s == "false" || s == "False" || s == "FALSE" then some false
  else none

/-- Whether a text is two digits or more, with a sign or none, of which the first is zero. Such a
text is no number. -/
def hasLeadingZero (cs : List Char) : Bool :=
  let digits :=
    match cs with
    | '-' :: rest | '+' :: rest => rest
    | rest => rest
  match digits with
  | '0' :: d :: rest => (d :: rest).all Decimal.isDigit
  | _ => false

/-- A number without a sign: digits of base sixteen, eight or two after their mark, or decimal
digits. -/
def natural? : List Char → Option Nat
  | '0' :: 'x' :: cs => Text.nat? 16 cs
  | '0' :: 'o' :: cs => Text.nat? 8 cs
  | '0' :: 'b' :: cs => Text.nat? 2 cs
  | cs => Text.nat? 10 cs

def integer? (s : String) : Option Int :=
  let cs := s.toList
  if hasLeadingZero cs then none
  else
    match cs with
    | '-' :: rest => (natural? rest).map fun n => -(n : Int)
    | '+' :: rest => (natural? rest).map Int.ofNat
    | rest => (natural? rest).map Int.ofNat

/-- A number that is never negative is written without a minus sign, also when it is zero. -/
def count? (s : String) : Option Nat :=
  match s.toList with
  | '-' :: _ => none
  | _ => (integer? s).map Int.toNat

/-- A finite number, or the name of an infinity or of not-a-number. -/
def real? (s : String) : Option Float :=
  let body :=
    match s.toList with
    | '+' :: rest => rest
    | cs => cs
  let name := String.ofList body
  if name == ".inf" || name == ".Inf" || name == ".INF" then some (1.0 / 0.0)
  else if s == "-.inf" || s == "-.Inf" || s == "-.INF" then some (-(1.0 / 0.0))
  else if s == ".nan" || s == ".NaN" || s == ".NAN" then some (0.0 / 0.0)
  else if s.toList.head? == some '+' && (body.head? == some '+' || body.head? == some '-') then none
  else (Decimal.float? body).filter Float.isFinite

/-- Whether an unquoted text would be read as something other than a string. Integers count up to
128 bits. -/
def isAmbiguous (s : String) : Bool :=
  let held (n : Int) : Bool := -Int.ofNat (Nat.pow 2 127) ≤ n && n < Int.ofNat (Nat.pow 2 128)
  let wide := ((integer? s).map held).getD false
  isNull s || (bool? s).isSome || hasLeadingZero s.toList || wide || (real? s).isSome

end Plain

/-! What a value reads as. -/

/-- The tag of a kind of value that every document knows. -/
def coreTag (kind : String) : String := "tag:yaml.org,2002:" ++ kind

/-- The name in a tag that belongs to the document alone. -/
def localName? (tag : String) : Option String :=
  match tag.toList with
  | ['!'] => some "!"
  | '!' :: name => some (String.ofList name)
  | _ => none

/-- The text of a value that may be of a kind: one without quotes, whatever its tag, or one with its
lines as they are under the tag of that kind. -/
def textFor? (kind : String) : Scalar → Option String
  | plain s | tagged _ .plain s => some s
  | tagged tag .literal s => if tag == coreTag kind then some s else none
  | _ => none

/-- Nothing was written, except perhaps a tag. -/
def isMissing : Scalar → Bool
  | plain s | tagged _ .plain s => s == ""
  | _ => false

/-- Whether a value is null. Under the tag of null it must be, and must be written. -/
def null? : Scalar → Option Bool
  | null => some true
  | plain s => some (Plain.isNull s)
  | tagged tag .plain s =>
    if tag == coreTag "null" then
      if s != "" && Plain.isNull s then some true else none
    else some false
  | _ => some false

/-- Every text can be read as a string. -/
def text? : Scalar → Option String
  | text s | plain s | tagged _ _ s => some s
  | _ => none

/-- The name that a value chooses: a string, or the name of a tag with nothing or null under it. -/
def choice? : Scalar → Option String
  | tagged tag style s =>
    match localName? tag, style with
    | none, _ => some s
    | some name, .plain => if Plain.isNull s then some name else none
    | some _, _ => none
  | s => s.text?

def bool? : Scalar → Option Bool
  | bool b => some b
  | s => (s.textFor? "bool").bind Plain.bool?

/-- An integer of 64 bits with a sign. -/
def integer? : Scalar → Option Int
  | integer n => if Text.isWord64 n then some n else none
  | s => ((s.textFor? "int").bind Plain.integer?).filter Text.isWord64

/-- An integer of 64 bits without a sign. -/
def count? : Scalar → Option Nat
  | integer n => if Text.isCount64 n then some n.toNat else none
  | s => ((s.textFor? "int").bind Plain.count?).filter fun n => Text.isCount64 n

/-- A double; an integer can be read as one. -/
def real? : Scalar → Option Float
  | integer n => some (Float.ofInt n)
  | real x => some x
  | s => (s.textFor? "float").bind Plain.real?

end Scalar

end TimedMutation
