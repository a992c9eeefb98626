import TimedMutation.Document.Scalar
import TimedMutation.Document.Yaml.Characters

/-!
The names of anchors, and tags. A tag is a handle and the octets after it; a directive may say which
octets a handle stands for.
-/

namespace TimedMutation.Yaml

/-- The characters of the names of anchors and handles. -/
def isNameChar (c : Char) : Bool := c.isAlphanum || c == '_' || c == '-'

/-- The name of an anchor. It ends at an edge or at a mark that no name starts with. -/
def anchorName? (cs : List Char) : Option (String × List Char) :=
  let name := cs.takeWhile isNameChar
  let rest := cs.dropWhile isNameChar
  let marks := ['?', ':', ',', ']', '\x7d', '%', '@', '\x60']
  if !name.isEmpty && (atEdge rest || (rest.head?.map fun c => marks.contains c).getD false) then
    some (String.ofList name, rest)
  else none

/-! ### Octets -/

/-- An octet that is written as two hexadecimal digits. -/
def octet? : List Char → Option (UInt8 × List Char)
  | '%' :: a :: b :: rest => (Text.nat? 16 [a, b]).map fun n => (n.toUInt8, rest)
  | _ => none

/-- How many octets of a character follow its first one. -/
def followers? (first : UInt8) : Option Nat :=
  if first < 0x80 then some 0
  else if 0xC0 ≤ first && first < 0xE0 then some 1
  else if 0xE0 ≤ first && first < 0xF0 then some 2
  else if 0xF0 ≤ first && first < 0xF8 then some 3
  else none

/-- The octets with which a character goes on. -/
def continued? : Nat → List Char → Option (List UInt8 × List Char)
  | 0, cs => some ([], cs)
  | n + 1, cs => do
    let (octet, rest) ← octet? cs
    if 0x80 ≤ octet && octet < 0xC0 then
      let (more, rest) ← continued? n rest
      return (octet :: more, rest)
    else none

/-- The characters of a tag. A comma and brackets are among them only where no list can end. -/
def isTagChar (alone : Bool) (c : Char) : Bool :=
  isNameChar c ||
    [';', '/', '?', ':', '@', '&', '=', '+', '$', '.', '!', '~', '*', '\'', '(', ')'].contains c ||
    (alone && (c == ',' || c == '[' || c == ']'))

/-- The longest run of a tag's characters, some of them written as octets. -/
def octets? (alone : Bool) : (budget : Nat) → List Char → Option (List UInt8 × List Char)
  | 0, cs => some ([], cs)
  | _, [] => some ([], [])
  | budget + 1, c :: cs =>
    if c == '%' then do
      let (first, rest) ← octet? (c :: cs)
      let (more, rest) ← continued? (← followers? first) rest
      let (octets, rest) ← octets? alone budget rest
      return (first :: more ++ octets, rest)
    else if isTagChar alone c then do
      let (octets, rest) ← octets? alone budget cs
      return (c.toNat.toUInt8 :: octets, rest)
    else some ([], c :: cs)

/-- A run of at least one character. Octets from the first zero on are dropped. -/
def someOctets? (alone : Bool) (cs : List Char) : Option (List UInt8 × List Char) := do
  let (octets, rest) ← octets? alone cs.length cs
  if octets.isEmpty then none else return (octets.takeWhile (· != 0), rest)

/-! ### Handles -/

/-- What the handles of a document stand for. -/
abbrev Handles := List (String × List UInt8)

/-- The handles of every document, which directives may give another meaning. -/
def coreHandles : Handles :=
  [("!", "!".toUTF8.toList), ("!!", (Scalar.coreTag "").toUTF8.toList)]

/-- A handle with a name, which may be empty, between two marks. -/
def namedHandle? : List Char → Option (String × List Char)
  | '!' :: cs =>
    match cs.dropWhile isNameChar with
    | '!' :: rest =>
      some (String.ofList ('!' :: (cs.takeWhile isNameChar ++ ['!'])), rest)
    | _ => none
  | _ => none

def handle? (cs : List Char) : Option (String × List Char) :=
  match namedHandle? cs, cs with
  | some found, _ => some found
  | none, '!' :: rest => some ("!", rest)
  | none, _ => none

/-- A handle and what it stands for, with at most a comment after it. -/
def handleEntry? (cs : List Char) : Option (String × List UInt8) := do
  let (handle, rest) ← handle? (cs.dropWhile isGap)
  if !(rest.head?.map isGap).getD false then none
  let (octets, rest) ← someOctets? true (rest.dropWhile isGap)
  if atEdge rest && isLineEnd (rest.dropWhile isGap) then some (handle, octets) else none

/-! ### Tags -/

/-- A tag. One that is written in full has an empty handle. -/
structure Tag where
  handle : String
  octets : List UInt8

namespace Tag

/-- A tag in angle brackets, one with a named handle, or a local one, which may be a mark alone. -/
def start? (cs : List Char) : Option (Tag × List Char) :=
  match namedHandle? cs, cs with
  | some (handle, rest), _ => (someOctets? false rest).map fun (octets, rest) => (⟨handle, octets⟩, rest)
  | none, '!' :: '<' :: rest =>
    match someOctets? true rest with
    | some (octets, '>' :: rest) => some (⟨"", octets⟩, rest)
    | _ => none
  | none, '!' :: rest => do
    let (octets, rest) ← octets? false rest.length rest
    let octets := octets.takeWhile (· != 0)
    return (if octets.isEmpty then ⟨"", "!".toUTF8.toList⟩ else ⟨"!", octets⟩, rest)
  | none, _ => none

/-- The tag at the start of a text. An edge must follow it, or a comma inside brackets. -/
def ofText? (inFlow : Bool) (cs : List Char) : Option (Tag × List Char) := do
  let (tag, rest) ← start? cs
  if atEdge rest || (inFlow && rest.head? == some ',') then return (tag, rest) else none

/-- The whole text of a tag; where its octets are no text, the empty one. -/
def text? (handles : Handles) (tag : Tag) : Option String := do
  let octets ←
    if tag.handle.isEmpty then some tag.octets
    else ((handles ++ coreHandles).lookup tag.handle).map (· ++ tag.octets)
  return (String.fromUTF8? ⟨octets.toArray⟩).getD ""

end Tag

end TimedMutation.Yaml
