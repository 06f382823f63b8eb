import HexAsm.Command.Run

/-!
# The program

Runs the command line on the files of the system.
-/

namespace HexAsm

/-- The files of the system. -/
def systemFiles : Files IO where
  read name := do
    try return String.fromUTF8? (← IO.FS.readBinFile name)
    catch _ => return none
  write name text := do
    try
      IO.FS.writeFile name text
      return true
    catch _ => return false

end HexAsm

/-- Runs the command line, prints what it says, and exits with its code. -/
def main (args : List String) : IO UInt32 := do
  let outcome ← HexAsm.runCommandLine HexAsm.systemFiles args
  (← IO.getStderr).putStr outcome.stderr
  (← IO.getStdout).putStr outcome.stdout
  return outcome.code
