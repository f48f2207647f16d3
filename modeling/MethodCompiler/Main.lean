import MethodCompiler.CommandLine.Run

/-!
# The program

Runs a command on the files of the system.
-/

namespace MethodCompiler.CommandLine

/-- Files of the system. -/
def systemFiles : FileAccess IO where
  isFile path := do
    try
      discard (IO.FS.readFile path)
      return true
    catch
      | .noFileOrDirectory _ _ _ => return false
      | .inappropriateType _ _ _ => return false
      | _ => return true
  read? path := do
    try
      return some (← IO.FS.readFile path)
    catch _ => return none
  write path text := do
    try
      IO.FS.writeFile path text
      return true
    catch _ => return false

end MethodCompiler.CommandLine

open MethodCompiler.CommandLine in
/-- Run the program, print what it has to say, and return its exit code. -/
def main (args : List String) : IO UInt32 := do
  let outcome ← run systemFiles args
  (← IO.getStdout).putStr (textOfLines outcome.stdout)
  (← IO.getStderr).putStr (textOfLines outcome.stderr)
  return UInt32.ofNat outcome.code
