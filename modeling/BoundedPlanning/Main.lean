import BoundedPlanning.CommandLine.Session
import BoundedPlanning.Solver.Engine

namespace BoundedPlanning.CommandLine

def Setting.path? : Setting → Option String
  | .domain path => some path
  | .problem path => some path
  | .config path => some path
  | _ => none

def isFile (path : String) : IO Bool := do
  try return (← ((← IO.currentDir) / path).metadata).type == .file
  catch _ => return false

def readFile? (path : String) : IO (Option ByteArray) := do
  try return some (← IO.FS.readBinFile path)
  catch _ => return none

/-- The given question, asked now for each of the paths. -/
def askAll {α : Type} (question : String → IO α) (otherwise : α) (paths : List String) :
    IO (String → α) := do
  let answers ← paths.mapM fun path => return (path, ← question path)
  return fun path => (answers.lookup path).getD otherwise

def timeAfterEpoch (seconds nanoseconds : Nat) : Timestamp :=
  let date := (seconds / 86400).repeat Date.next Timestamp.epoch.date
  let second := seconds % 86400
  let time? :=
    TimeOfDay.ofNumbers? (second / 3600) (second / 60 % 60) (second % 60) nanoseconds
  ⟨date, time?.getD Timestamp.epoch.time⟩

/-- The present time, which is when a file made now was last changed. -/
def now : IO Timestamp := do
  let (_, file) ← IO.FS.createTempFile
  let modified := (← file.metadata).modified
  IO.FS.removeFile file
  return timeAfterEpoch modified.sec.toNat modified.nsec.toNat

/-- The outlet of a run that started at the given milliseconds. -/
def outlet (started : Nat) : Outlet IO where
  times := return { totalMs := (← IO.monoMsNow) - started, finishedAt := ← now }
  write path bytes := do
    try
      IO.FS.writeBinFile path bytes
      return true
    catch _ => return false
  print text := do
    try
      let stdout ← IO.getStdout
      stdout.putStr text
      stdout.flush
      return true
    catch _ => return false

/-- The engine that learns, and no Z3.  Clocks count 63 bits of seconds. -/
def installation (started : Nat) : Installation LearningEngine Empty where
  batsat := some (LearningEngine.operations .patient)
  z3 := none
  clock := .patient
  longestBudget := 9223372036854775807 - started / 1000

end BoundedPlanning.CommandLine

open BoundedPlanning BoundedPlanning.CommandLine in
def main (arguments : List String) : IO UInt32 := do
  let paths := (scan arguments).settings.filterMap Setting.path?
  let isFile ← askAll isFile false paths
  let files ← askAll readFile? none paths
  let started ← IO.monoMsNow
  let reply ← run (outlet started) (installation started) isFile files arguments
  IO.eprint reply.stderr
  return UInt32.ofNat reply.exitCode
