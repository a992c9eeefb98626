import TimedMutation.Engine.Error
import TimedMutation.Text.Cut

/-! What the commands need of the machine that they run on. -/

namespace TimedMutation.CommandLine

/-- Files, output and time, in the effects of `m`. -/
structure Host (m : Type → Type) where
  readText : String → m (Except FileError String)
  isDirectory : String → m Bool
  /-- Make a directory and the directories above it, where they are missing. -/
  makeDirectories : String → m (Except FileError Unit)
  writeText : (path content : String) → m (Except FileError Unit)
  /-- Write to the standard output. -/
  print : String → m Unit
  /-- Write to the standard error stream. -/
  report : String → m Unit
  /-- Nanoseconds since some moment. -/
  clock : m Nat
  /-- Wait for some milliseconds. -/
  pause : Nat → m Unit
  /-- Whether the standard error stream is shown to someone. -/
  isShown : m Bool

/-- The path of a file in a directory. -/
def inDirectory (directory file : String) : String :=
  match directory.toList.getLast? with
  | none | some '/' => directory ++ file
  | some _ => directory ++ "/" ++ file

/-- What follows the last point of a path's last name, unless the name starts with that point. -/
def extension? (path : String) : Option String :=
  let name := ((path.toList.splitOn '/').filter fun n => !n.isEmpty && n != ['.']).getLast?.getD []
  let afterPoint := (name.reverse.takeWhile fun c => c != '.').reverse
  if name == ['.', '.'] || name.length ≤ afterPoint.length + 1 then none
  else some (String.ofList afterPoint)

end TimedMutation.CommandLine
