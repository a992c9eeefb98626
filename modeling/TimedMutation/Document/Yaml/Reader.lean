import TimedMutation.Document.Yaml.Node
import TimedMutation.Document.Yaml.Token

/-! The nodes that a list of YAML tokens stands for, and the document that a text writes. -/

namespace TimedMutation.Yaml

/-- What stands where a node is left out. -/
def absent : Node := .scalar (.plain "")

/-- What may stand before a node: an anchor, a tag, or both in either order. -/
structure Marks where
  anchor : Option Nat := none
  tag : Option String := none

namespace Marks

def ofTokens : List Token → Marks × List Token
  | .anchor n :: .tag t :: ts => (⟨some n, some t⟩, ts)
  | .tag t :: .anchor n :: ts => (⟨some n, some t⟩, ts)
  | .anchor n :: ts => (⟨some n, none⟩, ts)
  | .tag t :: ts => (⟨none, some t⟩, ts)
  | ts => (⟨none, none⟩, ts)

/-- A text under the marks. -/
def scalar (m : Marks) (style : Style) (s : String) : Node :=
  match m.tag, style with
  | some tag, _ => .scalar (.tagged tag style s)
  | none, .plain => .scalar (.plain s)
  | none, _ => .scalar (.text s)

/-- The node of marks that nothing follows. -/
def alone? (m : Marks) : Option Node :=
  match m.tag with
  | some tag => some (.scalar (.tagged tag .plain ""))
  | none => if m.anchor.isSome then some absent else none

def anchored (m : Marks) (node : Node) : Node :=
  match m.anchor with
  | some n => .anchored n node
  | none => node

end Marks

/-- Whether a node is left out before a token. -/
def endsNode : Token → Bool
  | .blockEnd | .flowListEnd | .flowMapEnd | .item | .comma | .key | .value
  | .documentStart | .documentEnd | .directive _ => true
  | _ => false

mutual

/-- The node that starts the tokens. Inside a block map a list may stand at the indentation of its
key, and then has no marks of its own. -/
def node? : (budget : Nat) → (inBlock unmarked : Bool) → List Token → Option (Node × List Token)
  | 0, _, _, _ => none
  | budget + 1, inBlock, unmarked, ts =>
    match ts with
    | .again n :: rest => some (.again n, rest)
    | ts => do
      let (marks, ts) := Marks.ofTokens ts
      let (node, rest) ←
        match ts with
        | .scalar style s :: rest => some (marks.scalar style s, rest)
        | .flowList :: rest => (flowItems? budget true rest).map fun (ns, rest) => (.list ns, rest)
        | .flowMap :: rest => (flowEntries? budget true rest).map fun (es, rest) => (.map es, rest)
        | .blockList :: rest =>
          if inBlock then (blockItems? budget rest).map fun (ns, rest) => (.list ns, rest) else none
        | .blockMap :: rest =>
          if inBlock then (blockEntries? budget rest).map fun (es, rest) => (.map es, rest) else none
        | .item :: rest =>
          if unmarked then
            (unmarkedItems? budget (.item :: rest)).map fun (ns, rest) => (.list ns, rest)
          else marks.alone?.map fun node => (node, .item :: rest)
        | rest => marks.alone?.map fun node => (node, rest)
      return (marks.anchored node, rest)

/-- A node, or what stands for one that is left out. -/
def nodeOrAbsent? : (budget : Nat) → (inBlock unmarked : Bool) → List Token →
    Option (Node × List Token)
  | 0, _, _, _ => none
  | budget + 1, inBlock, unmarked, ts =>
    match ts with
    | [] => some (absent, [])
    | .item :: rest =>
      if unmarked then node? budget inBlock unmarked (.item :: rest)
      else some (absent, .item :: rest)
    | t :: rest =>
      if endsNode t then some (absent, t :: rest) else node? budget inBlock unmarked (t :: rest)

def blockItems? : (budget : Nat) → List Token → Option (List Node × List Token)
  | 0, _ => none
  | budget + 1, ts =>
    match ts with
    | .item :: rest => do
      let (n, rest) ← nodeOrAbsent? budget true false rest
      let (ns, rest) ← blockItems? budget rest
      return (n :: ns, rest)
    | .blockEnd :: rest => some ([], rest)
    | _ => none

def unmarkedItems? : (budget : Nat) → List Token → Option (List Node × List Token)
  | 0, _ => none
  | budget + 1, ts =>
    match ts with
    | .item :: rest => do
      let (n, rest) ← nodeOrAbsent? budget true false rest
      let (ns, rest) ← unmarkedItems? budget rest
      return (n :: ns, rest)
    | rest => some ([], rest)

def blockEntries? : (budget : Nat) → List Token → Option (List (Node × Node) × List Token)
  | 0, _ => none
  | budget + 1, ts =>
    match ts with
    | .key :: rest => do
      let (k, rest) ← nodeOrAbsent? budget true true rest
      let (v, rest) ←
        match rest with
        | .value :: rest => nodeOrAbsent? budget true true rest
        | rest => some (absent, rest)
      let (es, rest) ← blockEntries? budget rest
      return ((k, v) :: es, rest)
    | .blockEnd :: rest => some ([], rest)
    | _ => none

/-- The items of a list in brackets. One with a key is a map of that entry alone. Where the key is
left out, the mark that stands in its place is passed over, whichever it is. -/
def flowItems? : (budget : Nat) → (first : Bool) → List Token →
    Option (List Node × List Token)
  | 0, _, _ => none
  | budget + 1, first, ts =>
    match ts with
    | .flowListEnd :: rest => some ([], rest)
    | ts => do
      let ts ←
        if first then some ts
        else
          match ts with
          | .comma :: rest => some rest
          | _ => none
      match ts with
      | .flowListEnd :: rest => return ([], rest)
      | .key :: rest =>
        let (k, rest) ←
          match rest with
          | .value :: rest | .comma :: rest | .flowListEnd :: rest => some (absent, rest)
          | rest => node? budget false false rest
        let (v, rest) ←
          match rest with
          | .value :: rest => nodeOrAbsent? budget false false rest
          | rest => some (absent, rest)
        let (ns, rest) ← flowItems? budget false rest
        return (.map [(k, v)] :: ns, rest)
      | ts =>
        let (n, rest) ← node? budget false false ts
        let (ns, rest) ← flowItems? budget false rest
        return (n :: ns, rest)

/-- The entries of a map in braces. -/
def flowEntries? : (budget : Nat) → (first : Bool) → List Token →
    Option (List (Node × Node) × List Token)
  | 0, _, _ => none
  | budget + 1, first, ts =>
    match ts with
    | .flowMapEnd :: rest => some ([], rest)
    | ts => do
      let ts ←
        if first then some ts
        else
          match ts with
          | .comma :: rest => some rest
          | _ => none
      match ts with
      | .flowMapEnd :: rest => return ([], rest)
      | .key :: rest =>
        let (k, rest) ← nodeOrAbsent? budget false false rest
        let (v, rest) ←
          match rest with
          | .value :: rest => nodeOrAbsent? budget false false rest
          | rest => some (absent, rest)
        let (es, rest) ← flowEntries? budget false rest
        return ((k, v) :: es, rest)
      | ts =>
        let (k, rest) ← node? budget false false ts
        let (es, rest) ← flowEntries? budget false rest
        return ((k, absent) :: es, rest)

end

def dropDocumentEnds : List Token → List Token
  | .documentEnd :: ts => dropDocumentEnds ts
  | ts => ts

/-- The tokens after the directives, of which one at most may tell the version. -/
def afterDirectives? : (versioned : Bool) → List Token → Option (List Token)
  | versioned, .directive version :: ts =>
    if versioned && version then none else afterDirectives? (versioned || version) ts
  | _, ts => some ts

/-- The single node of a list of tokens. Directives need a mark of the document's start after them,
and nothing may follow the node. -/
def ofTokens? (ts : List Token) : Option Node := do
  let budget := 4 * ts.length + 4
  let (node, rest) ←
    match ts with
    | [] => some (absent, [])
    | .directive _ :: _ | .documentStart :: _ =>
      match ← afterDirectives? false ts with
      | .documentStart :: rest => nodeOrAbsent? budget true false rest
      | _ => none
    | ts => node? budget true false ts
  if (dropDocumentEnds rest).isEmpty then some node else none

/-- The document that a text writes. -/
def read? (text : String) : Option Document := do
  return (← ofTokens? (← tokens? text)).toDocument

end TimedMutation.Yaml
