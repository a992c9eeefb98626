import TimedMutation.CommandLine.Commands

/-! The program on a real machine. -/

namespace TimedMutation.CommandLine

/-- The cause behind an error of the machine. -/
def causeOf : IO.Error → FileError
  | .noFileOrDirectory .. => .notFound
  | .inappropriateType _ 21 _ => .isDirectory
  | .inappropriateType _ 20 _ => .notDirectory
  | .alreadyExists .. => .alreadyExists
  | .invalidArgument _ 36 _ => .nameTooLong
  | e => .other e.toString

def attemptFile {α : Type} (action : IO α) : IO (Except FileError α) := do
  match ← action.toBaseIO with
  | .ok a => return .ok a
  | .error e => return .error (causeOf e)

/-- The text of a file whose bytes must be a text. -/
def readTextFile (path : String) : IO (Except FileError String) := do
  match ← attemptFile (IO.FS.readBinFile path) with
  | .error e => return .error e
  | .ok bytes =>
    match String.fromUTF8? bytes with
    | some text => return .ok text
    | none => return .error .notText

def machine : Host IO where
  readText := readTextFile
  isDirectory path := do
    match ← (IO.FS.realPath path).toBaseIO with
    | .ok path => path.isDir
    | .error _ => return false
  makeDirectories path := attemptFile (IO.FS.createDirAll path)
  writeText path content := attemptFile (IO.FS.writeFile path content)
  print := IO.print
  report := IO.eprint
  clock := IO.monoNanosNow
  pause milliseconds := IO.sleep (UInt32.ofNat milliseconds)
  isShown := do (← IO.getStderr).isTty

end TimedMutation.CommandLine

def main (words : List String) : IO UInt32 := do
  TimedMutation.CommandLine.execute TimedMutation.CommandLine.machine (← IO.getEnv "TAMUT_CONFIG")
    words
