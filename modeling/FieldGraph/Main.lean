import FieldGraph.Command.Run

/-!
# The program

Runs the command line on the machine it is started on.
-/

namespace FieldGraph

/-- The number of processors that the system lists, or one where there is no list. -/
def countCores : IO Nat := do
  try
    let lines ← IO.FS.lines "/proc/cpuinfo"
    return max (lines.filter (·.startsWith "processor")).size 1
  catch _ => return 1

/-- The text of a failure of the system. -/
def systemReason (e : IO.Error) : String :=
  match e with
  | .noFileOrDirectory .. => "No such file or directory (os error 2)"
  | .permissionDenied .. => "Permission denied (os error 13)"
  | .inappropriateType .. => "Is a directory (os error 21)"
  | e => toString e

/-- A number of milliseconds in seconds, with two places. -/
def secondsText (ms : Nat) : String :=
  let hundredths := (ms + 5) / 10
  let rest := toString (hundredths % 100)
  toString (hundredths / 100) ++ "." ++ (if rest.length < 2 then "0" ++ rest else rest) ++ "s"

/-- The machine that the program runs on. -/
def localMachine (cores start : Nat) : Machine IO where
  cores := cores
  print := fun s => IO.print s
  read? := fun path => do
    try
      return some (← IO.FS.readFile path)
    catch _ => return none
  create := fun path => do
    try
      IO.FS.writeBinFile path ByteArray.empty
      return .ok ()
    catch e => return .error (systemReason e)
  fill := fun path file => IO.FS.writeBinFile path file.bytes
  elapsed := do return secondsText ((← IO.monoMsNow) - start)

/-- Run a command line on this machine and answer its exit code. -/
def runProgram (args : List String) : IO UInt32 := do
  let exit ← Command.runArgs (localMachine (← countCores) (← IO.monoMsNow)) args
  (← IO.getStderr).putStr exit.text
  return exit.code

end FieldGraph

def main (args : List String) : IO UInt32 := FieldGraph.runProgram args
