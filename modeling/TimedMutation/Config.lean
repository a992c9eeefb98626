import TimedMutation.Document.Yaml.Reader
import TimedMutation.Document.Yaml.Writer
import TimedMutation.Engine.Settings
import TimedMutation.Failure
import TimedMutation.Replay.Basic

/-!
Configurations. Every part of one has a default. `listed` tells whether a list of values may stand
for a record.
-/

namespace TimedMutation

open Document (Fields)

structure Config where
  replay : ReplaySettings := {}
  engine : EngineSettings := {}
  /-- The codes of the operators to run; none stand for all. -/
  operators : List String := []

def TieBreak.ofDocument? (d : Document) : Option TieBreak := do ofName? (← d.choice?)

def ReplaySettings.ofDocument? (listed : Bool) (d : Document) : Option ReplaySettings := do
  let fields ← d.fields? listed
    ["max_steps", "delay_step", "tie_break", "test_process", "mutant_process"]
  let default : ReplaySettings := {}
  return {
    maxSteps := ← fields.optional? "max_steps" Document.count? default.maxSteps
    delayStep := ← fields.optional? "delay_step" Document.real? default.delayStep
    tieBreak := ← fields.optional? "tie_break" TieBreak.ofDocument? default.tieBreak
    testProcess := ← fields.optional? "test_process" Document.text? default.testProcess
    mutantProcess := ← fields.optional? "mutant_process" Document.text? default.mutantProcess }

def ReplaySettings.toDocument (s : ReplaySettings) : Document :=
  .record [("max_steps", .count s.maxSteps), ("delay_step", .real s.delayStep),
    ("tie_break", .text s.tieBreak.name), ("test_process", .text s.testProcess),
    ("mutant_process", .text s.mutantProcess)]

def RetryPolicy.ofDocument? (listed : Bool) (d : Document) : Option RetryPolicy := do
  let fields ← d.fields? listed ["max_retries", "backoff_ms"]
  let default : RetryPolicy := {}
  return {
    maxRetries := ← fields.optional? "max_retries" Document.count? default.maxRetries
    backoff := ← fields.optional? "backoff_ms" Document.count? default.backoff }

def RetryPolicy.toDocument (p : RetryPolicy) : Document :=
  .record [("max_retries", .count p.maxRetries), ("backoff_ms", .count p.backoff)]

def EngineSettings.ofDocument? (listed : Bool) (d : Document) : Option EngineSettings := do
  let fields ← d.fields? listed
    ["max_connections", "acquire_timeout_ms", "call_timeout_ms", "retry"]
  let default : EngineSettings := {}
  return {
    maxConnections := ← fields.optional? "max_connections" Document.count? default.maxConnections
    acquireLimit := ← fields.optional? "acquire_timeout_ms" Document.count? default.acquireLimit
    callLimit := ← fields.optional? "call_timeout_ms" Document.count? default.callLimit
    retry := ← fields.optional? "retry" (RetryPolicy.ofDocument? listed) default.retry }

def EngineSettings.toDocument (s : EngineSettings) : Document :=
  .record [("max_connections", .count s.maxConnections), ("acquire_timeout_ms", .count s.acquireLimit),
    ("call_timeout_ms", .count s.callLimit), ("retry", s.retry.toDocument)]

namespace Config

def ofDocument? (listed : Bool) (d : Document) : Option Config := do
  let fields ← d.fields? listed ["verdict", "engine", "operators"]
  return {
    replay := ← fields.optional? "verdict" (ReplaySettings.ofDocument? listed) {}
    engine := ← fields.optional? "engine" (EngineSettings.ofDocument? listed) {}
    operators := ← fields.optional? "operators" (Document.listOf? Document.text?) [] }

def toDocument (c : Config) : Document :=
  .record [("verdict", c.replay.toDocument), ("engine", c.engine.toDocument),
    ("operators", .texts c.operators)]

def ofYaml (text : String) : Except Failure Config :=
  match (Yaml.read? text).bind (ofDocument? false) with
  | some c => .ok c
  | none => .error .unreadable

def toYaml (c : Config) : String := Yaml.write c.toDocument

/-- The class that a code names, white space around it aside. -/
def classOf (code : String) : Except Failure MutationClass :=
  match MutationClass.ofCode? (String.ofList (Text.trim code.toList)) with
  | some m => .ok m
  | none => .error (.unknownOperator code)

/-- The selected classes, each once, in the order of the catalogue. -/
def classes (c : Config) : Except Failure (List MutationClass) :=
  if c.operators.isEmpty then .ok MutationClass.all
  else (c.operators.mapM classOf).map MutationClass.inOrder

end Config

end TimedMutation
