import Entangle.Command.Run

/-!
# The command

Reads the arguments, the variables of the environment and the files that a run asks for, and writes
what the run leaves behind.
-/

namespace Entangle.Command

/-- The text of a file, if there is one that can be read. -/
def readText (name : String) : IO (Option String) := do
  try
    return some (← IO.FS.readFile name)
  catch _ =>
    return none

def readEnvironment : IO Environment :=
  Setting.all.filterMapM fun s => do
    return (← IO.getEnv s.variableName).map fun text => (s.variableName, text)

/-- A new name for a report. -/
def newId : IO String := do
  return identifier (← IO.getRandomBytes 16).toList

/-- The files that the arguments of a run can name. -/
def readFiles (arguments : List String) : IO (List (String × String)) :=
  arguments.filterMapM fun name => do
    return (← readText name).map fun text => (name, text)

/-- Runs the command; the result is the exit code. -/
def execute (arguments : List String) : IO UInt32 := do
  let files ← readFiles arguments
  let transcript := run {
    arguments := arguments
    environment := ← readEnvironment
    variableFile := ← readText ".env"
    files := fun name => files.lookup name
    id := ← newId }
  IO.eprint transcript.log
  IO.print transcript.output
  return transcript.exitCode.toUInt32

end Entangle.Command

def main (arguments : List String) : IO UInt32 := Entangle.Command.execute arguments
