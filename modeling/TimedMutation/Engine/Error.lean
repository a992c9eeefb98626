import TimedMutation.Text.Numeral

/-! Why no strategy comes from an engine. -/

namespace TimedMutation

/-- Why a file or a directory cannot be used. -/
inductive FileError where
  | notFound
  | isDirectory
  | notDirectory
  | alreadyExists
  | notText
  | nameTooLong
  | other (message : String)
  deriving DecidableEq, Repr

def FileError.message : FileError → String
  | notFound => "No such file or directory (os error 2)"
  | isDirectory => "Is a directory (os error 21)"
  | notDirectory => "Not a directory (os error 20)"
  | alreadyExists => "File exists (os error 17)"
  | notText => "stream did not contain valid UTF-8"
  | nameTooLong => "File name too long (os error 36)"
  | other message => message

inductive EngineError where
  /-- The engine has no strategy for a case; `path` is where it looked. -/
  | notFound (caseId path : String)
  | io (cause : FileError)
  /-- A call took longer than `limit` milliseconds. -/
  | timeout (caseId : String) (limit : Nat)
  /-- No engine was idle for `waited` milliseconds. -/
  | exhausted (waited : Nat)
  | poisoned
  deriving DecidableEq, Repr

namespace EngineError

/-- Failures of the communication may pass; a missing strategy stays missing. -/
def isRetryable : EngineError → Bool
  | io _ | timeout _ _ => true
  | notFound _ _ | exhausted _ | poisoned => false

def message : EngineError → String
  | notFound caseId path => "No strategy for test case '" ++ caseId ++ "' at " ++ path
  | io cause => "Engine I/O failure: " ++ cause.message
  | timeout caseId limit =>
    "Engine call for '" ++ caseId ++ "' exceeded " ++ Text.ofNat limit ++ " ms"
  | exhausted waited => "No engine connection available after " ++ Text.ofNat waited ++ " ms"
  | poisoned => "Engine pool lock poisoned"

end EngineError

end TimedMutation
