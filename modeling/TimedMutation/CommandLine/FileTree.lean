import TimedMutation.CommandLine.Host

/-! A tree of files in memory, and commands run on it. -/

namespace TimedMutation.CommandLine

inductive FileNode where
  | directory
  | text (content : String)
  /-- A file whose bytes are no text. -/
  | binary
  deriving DecidableEq, Repr

/-- Files and directories by their names from the root. Every directory above one is in the tree,
the root aside. -/
structure FileTree where
  nodes : List (List String × FileNode)
  deriving DecidableEq, Repr

namespace FileTree

def empty : FileTree := ⟨[]⟩

def node? (t : FileTree) (place : List String) : Option FileNode :=
  if place.isEmpty then some .directory else t.nodes.lookup place

/-- The tree with a node at a place. -/
def put (t : FileTree) (place : List String) (node : FileNode) : FileTree :=
  ⟨(t.nodes.filter fun n => n.1 != place) ++ [(place, node)]⟩

/-- The names of a path. Slashes next to each other and one at its end leave empty names. -/
def namesOf (path : String) : List String := (path.toList.splitOn '/').map String.ofList

/-- Whether a name leads to the directory that it is in. -/
def stays (name : String) : Bool := name == "" || name == "."

/-- The place that a name leads to from a directory. -/
def enter (place : List String) (name : String) : List String :=
  if stays name then place else if name == ".." then place.dropLast else place ++ [name]

/-- The place that names lead to from `place`, of which each but the last must lead to a
directory. -/
def walk (t : FileTree) (place : List String) : List String → Except FileError (List String)
  | [] => .ok place
  | name :: names =>
    match t.node? place with
    | none => .error .notFound
    | some .directory =>
      if 255 < Text.byteLength name.toList then .error .nameTooLong
      else t.walk (enter place name) names
    | some _ => .error .notDirectory

/-- The names of a path that can be looked up. Nothing lies outside the tree. -/
def names (path : String) : Except FileError (List String) :=
  if path.toList.contains '\x00' then
    .error (.other "file name contained an unexpected NUL byte")
  else if 4095 < Text.byteLength path.toList then .error .nameTooLong
  else if path.isEmpty || path.toList.head? == some '/' then .error .notFound
  else .ok (namesOf path)

/-- The place of a path. -/
def place (t : FileTree) (path : String) : Except FileError (List String) := do
  t.walk [] (← names path)

def readText (t : FileTree) (path : String) : Except FileError String := do
  match t.node? (← t.place path) with
  | none => throw .notFound
  | some .directory => throw .isDirectory
  | some .binary => throw .notText
  | some (.text content) => return content

/-- Whether names lead to a directory. -/
def leadsToDirectory (t : FileTree) (names : List String) : Bool :=
  match t.walk [] names with
  | .ok place => t.node? place == some .directory
  | .error _ => false

def isDirectory (t : FileTree) (path : String) : Bool :=
  match names path with
  | .ok names => t.leadsToDirectory names
  | .error _ => false

def writeText (t : FileTree) (path content : String) : Except FileError FileTree := do
  let place ← t.place path
  if t.node? place == some .directory then throw .isDirectory
  return t.put place (.text content)

/-- The tree with a directory where names lead to. Those above it must be there already. -/
def makeDirectory (t : FileTree) (names : List String) : Except FileError FileTree := do
  let place ← t.walk [] names
  if (t.node? place).isSome then throw .alreadyExists
  return t.put place .directory

/-- As `makeDirectory`, but a directory that is there will do. -/
def ensureDirectory (t : FileTree) (names : List String) : Except FileError FileTree :=
  match t.makeDirectory names with
  | .ok t => .ok t
  | .error e => if t.leadsToDirectory names then .ok t else .error e

/-- The tree with the first of several directories, each of which is above the one before it. Those
above a directory are looked at only where it cannot be made without them. -/
def ensureDirectories (t : FileTree) : List (List String) → Except FileError FileTree
  | [] => .ok t
  | names :: above =>
    match t.ensureDirectory names with
    | .error .notFound => do (← t.ensureDirectories above).ensureDirectory names
    | made => made

/-- The names of the directories above the one that names lead to, the closest first. -/
def above (names : List String) : List (List String) :=
  let names := names.filter fun n => !stays n
  ((List.range names.length).drop 1).reverse.map names.take

def makeDirectories (t : FileTree) (path : String) : Except FileError FileTree := do
  let names := ((← names path).reverse.dropWhile (· == "")).reverse
  t.ensureDirectories (names :: above names)

/-- The tree with a file or a directory of a path, and the directories above it. -/
def withNode (t : FileTree) (path : String) (node : FileNode) : FileTree :=
  let names := (namesOf path).filter fun n => !stays n
  ((above names).foldr (fun place t => t.put place .directory) t).put names node

end FileTree

/-- A machine in memory: its files and what was written to its output. -/
structure MemoryHost where
  files : FileTree
  output : List String
  errors : List String
  /-- How often the time was asked for; it passes by a nanosecond each time. -/
  ticks : Nat

namespace MemoryHost

def ofFiles (files : FileTree) : MemoryHost := ⟨files, [], [], 0⟩

/-- The commands' view of a machine in memory. -/
def view : Host (StateM MemoryHost) where
  readText path := do return (← get).files.readText path
  isDirectory path := do return (← get).files.isDirectory path
  makeDirectories path := do
    match (← get).files.makeDirectories path with
    | .ok files => modify fun s => { s with files }; return .ok ()
    | .error e => return .error e
  writeText path content := do
    match (← get).files.writeText path content with
    | .ok files => modify fun s => { s with files }; return .ok ()
    | .error e => return .error e
  print text := modify fun s => { s with output := text :: s.output }
  report text := modify fun s => { s with errors := text :: s.errors }
  clock := do
    modify fun s => { s with ticks := s.ticks + 1 }
    return (← get).ticks
  pause _ := return ()
  isShown := return false

end MemoryHost

end TimedMutation.CommandLine
