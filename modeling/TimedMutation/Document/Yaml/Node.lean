import TimedMutation.Document.Basic

/-!
The nodes of a YAML document, of which some are anchored and others stand for them. The document that
they write has the anchored nodes in the places of those that stand for them.
-/

namespace TimedMutation.Yaml

inductive Node where
  | scalar (s : Scalar)
  | list (items : List Node)
  | map (entries : List (Node × Node))
  /-- The node of an anchor with a number. -/
  | anchored (number : Nat) (node : Node)
  /-- The node of an anchor once more. -/
  | again (number : Nat)

/-- The documents that anchors stand for, by number. -/
abbrev Anchored := List (Nat × Document)

/-- The key that a node stands for. A collection is no key that can be read. -/
def keyOf : Document → Scalar
  | .scalar s => s
  | _ => .unreadable

namespace Node

mutual

/-- The document of a node. An anchor that stands for none is unreadable. -/
def document (known : Anchored) : Node → Document
  | .scalar s => .scalar s
  | .list items => .list (documents known items)
  | .map entries => .map (entryDocuments known entries)
  | .anchored _ node => document known node
  | .again number => (known.lookup number).getD (.scalar .unreadable)

def documents (known : Anchored) : List Node → List Document
  | [] => []
  | node :: nodes => document known node :: documents known nodes

def entryDocuments (known : Anchored) : List (Node × Node) → List (Scalar × Document)
  | [] => []
  | (key, value) :: entries =>
    (keyOf (document known key), document known value) :: entryDocuments known entries

end

mutual

/-- The anchored nodes inside a node. -/
def anchors : Node → List (Nat × Node)
  | .scalar _ | .again _ => []
  | .list items => itemAnchors items
  | .map entries => entryAnchors entries
  | .anchored number node => (number, node) :: anchors node

def itemAnchors : List Node → List (Nat × Node)
  | [] => []
  | node :: nodes => anchors node ++ itemAnchors nodes

def entryAnchors : List (Node × Node) → List (Nat × Node)
  | [] => []
  | (key, value) :: entries => anchors key ++ anchors value ++ entryAnchors entries

end

/-- The documents of anchored nodes, in which at most `depth` nodes on a path were put in the places
of others. -/
def unfold (anchors : List (Nat × Node)) : (depth : Nat) → Anchored
  | 0 => []
  | depth + 1 =>
    let known := unfold anchors depth
    anchors.map fun (number, node) => (number, node.document known)

/-- A node may contain itself, so its document is built to a depth only, which is beyond that of every
record. -/
def toDocument (node : Node) : Document := node.document (unfold node.anchors 16)

end Node

end TimedMutation.Yaml
