import TimedMutation.Text.Cut

/-! Command-line words sorted into options and operands.

Short options can be clustered, a value can be attached to its option or follow it, and after `--`
every word is an operand. A word that starts with a dash is never the value of the word before
it. A value that is a word of its own is checked when the next word of its level is read, so that
one right before a subcommand is checked after the words of the subcommand. -/

namespace TimedMutation.CommandLine

/-- How often an option may be given, and what it takes. -/
inductive OptionKind where
  /-- At most once, without a value. -/
  | flag
  /-- Any number of times, without a value. -/
  | counter
  /-- At most once, with a value. -/
  | value
  /-- Any number of times, with a value each time. -/
  | list
  deriving DecidableEq, Repr

namespace OptionKind

def takesValue : OptionKind → Bool
  | value | list => true
  | flag | counter => false

def repeats : OptionKind → Bool
  | counter | list => true
  | flag | value => false

end OptionKind

structure OptionSpec where
  /-- The name after two dashes. -/
  name : String
  /-- The letter after one dash. -/
  letter : Option Char := none
  kind : OptionKind
  /-- Whether a text is a value of the option. -/
  accepts : String → Bool := fun _ => true

/-- The options and operands of one level: of the program itself or of a subcommand. -/
structure LevelSpec where
  options : List OptionSpec
  /-- The names that end the level and start the next one. -/
  subcommands : List String := []
  /-- The greatest number of operands. -/
  operands : Nat := 0
  accepts : String → Bool := fun _ => true

/-- What keeps a command from being run. -/
inductive Interruption where
  | help
  | version
  | invalid
  deriving DecidableEq, Repr

/-- What a level was given, in order. An option without a value has an empty one. -/
structure Level where
  options : List (String × String)
  operands : List String

namespace Level

def empty : Level := ⟨[], []⟩

def has (l : Level) (name : String) : Bool := l.options.any fun o => o.1 == name

def values (l : Level) (name : String) : List String :=
  (l.options.filter fun o => o.1 == name).map (·.2)

def value? (l : Level) (name : String) : Option String := (l.values name).getLast?

/-- The level with one more option. -/
def give (l : Level) (option : OptionSpec) (value : String) : Except Interruption Level :=
  if l.has option.name && !option.kind.repeats then .error .invalid
  else if !option.accepts value then .error .invalid
  else .ok { l with options := l.options ++ [(option.name, value)] }

/-- The level with one more operand. -/
def operate (l : Level) (spec : LevelSpec) (operand : String) : Except Interruption Level :=
  if l.operands.length < spec.operands && spec.accepts operand then
    .ok { l with operands := l.operands ++ [operand] }
  else .error .invalid

end Level

/-- What the words so far leave open. -/
inductive Demand where
  | nothing
  /-- The next word is the value of this option. -/
  | value (option : OptionSpec)
  /-- The last word is the value of this option and has yet to be checked. -/
  | check (option : OptionSpec) (text : String)

/-- The level when no word comes any more. -/
def Demand.settle (l : Level) : Demand → Except Interruption Level
  | .nothing => .ok l
  | .value _ => .error .invalid
  | .check option text => l.give option text

/-- A long option: its name, and the value after an equals sign. -/
def readLong (spec : LevelSpec) (l : Level) (word : List Char) :
    Except Interruption (Level × Demand) := do
  let (name, attached) :=
    match Text.cutAt? ['='] word with
    | some (name, value) => (String.ofList name, some (String.ofList value))
    | none => (String.ofList word, none)
  match spec.options.find? fun o => o.name == name with
  | some option =>
    match option.kind.takesValue, attached with
    | true, some value => return (← l.give option value, .nothing)
    | true, none => return (l, .value option)
    | false, none => return (← l.give option "", .nothing)
    | false, some _ => throw .invalid
  | none =>
    if attached.isNone && name == "help" then throw .help
    else if attached.isNone && name == "version" then throw .version
    else throw .invalid

/-- A cluster of short options. What follows an option with a value is the value. -/
def readShort (spec : LevelSpec) (l : Level) : List Char → Except Interruption (Level × Demand)
  | [] => .ok (l, .nothing)
  | letter :: rest =>
    match spec.options.find? fun o => o.letter == some letter with
    | some option =>
      if option.kind.takesValue then
        match rest with
        | [] => .ok (l, .value option)
        | '=' :: value => (l.give option (String.ofList value)).map fun l => (l, .nothing)
        | value => (l.give option (String.ofList value)).map fun l => (l, .nothing)
      else
        match l.give option "" with
        | .ok l => readShort spec l rest
        | .error e => .error e
    | none =>
      if letter == 'h' then .error .help
      else if letter == 'V' then .error .version
      else .error .invalid

/-- Words after `--`. -/
def readOperands (spec : LevelSpec) (l : Level) : List String → Except Interruption Level
  | [] => .ok l
  | word :: words => do readOperands spec (← l.operate spec word) words

/-- What the words of a level come to. -/
structure Scanned where
  /-- What the level was given, unless its last value is refused. -/
  level : Except Interruption Level
  /-- The subcommand that ended the level and the words after it. -/
  next : Option (String × List String)

/-- The words of a level, up to a subcommand. -/
def scan (spec : LevelSpec) (l : Level) (demand : Demand) :
    List String → Except Interruption Scanned
  | [] => .ok ⟨demand.settle l, none⟩
  | word :: words => do
    match demand with
    | .value option =>
      match word.toList with
      | '-' :: _ :: _ => throw .invalid
      | _ => scan spec l (.check option word) words
    | demand =>
      if spec.subcommands.contains word then return ⟨demand.settle l, some (word, words)⟩
      let l ← demand.settle l
      match word.toList with
      | ['-', '-'] => return ⟨readOperands spec l words, none⟩
      | '-' :: '-' :: cs =>
        let (l, demand) ← readLong spec l cs
        scan spec l demand words
      | '-' :: c :: cs =>
        let (l, demand) ← readShort spec l (c :: cs)
        scan spec l demand words
      | _ => scan spec (← l.operate spec word) .nothing words

end TimedMutation.CommandLine
